import Nib.Build.Spec.Scan
import Nib.Build.Properties.Order
import Mathlib.Data.Set.Finite.List
import Mathlib.Data.List.Nodup
import Mathlib.Data.Set.Card

/-!
# Module identity

* `addModule_adds` — the sources that `add_module` adds, each with all that it uses
* `addModule_some` — the recursion ends, since the buffers leave room for finitely many paths
* `discovers_iff` — the table has the paths that the `use` lines spell
* `scan_once_iff` — when no file is in it twice
-/

namespace Nib.Build

open Relation

variable {F : Type} {fs : FileSystem F} {es es' : List Entry} {p q root : Path} {i : Nat}

/-! ## Paths -/

theorem fit_fit (p : Path) : fit (fit p) = fit p := by
  rw [fit, fit, List.take_take, Nat.min_self]

theorem getDir_fit (p : Path) : getDir (fit p) = getDir p := by
  rw [getDir, fit_fit]
  rfl

theorem fit_useTarget {dir : Path} {line : List Char} (h : fs.useTarget dir line = some q) :
    fit q = q := by
  obtain ⟨nifPath, -, h⟩ := Option.bind_eq_some_iff.mp h
  simp only at h
  split_ifs at h
  · obtain rfl := Option.some.inj h
    unfold resolvePath
    split_ifs <;> exact fit_fit _
  · obtain rfl := Option.some.inj h
    exact fit_fit _

/-! ## The table -/

/-- The paths of a table. -/
def paths (es : List Entry) : List Path := es.map Entry.nibPath

@[simp] theorem paths_append (es es' : List Entry) : paths (es ++ es') = paths es ++ paths es' :=
  List.map_append

@[simp] theorem paths_length (es : List Entry) : (paths es).length = es.length := List.length_map _

@[simp] theorem pushDep_length (es : List Entry) (i dep : Nat) :
    (pushDep es i dep).length = es.length := List.length_modify ..

@[simp] theorem paths_pushDep (es : List Entry) (i dep : Nat) :
    paths (pushDep es i dep) = paths es := by
  refine List.ext_getElem? fun j => ?_
  simp only [paths, pushDep, List.getElem?_map, List.getElem?_modify]
  split_ifs <;> cases es[j]? <;> rfl

theorem findModule_some (h : findModule es p = some i) : p ∈ paths es ∧ i < es.length := by
  obtain ⟨hi, hp, -⟩ := List.findIdx?_eq_some_iff_getElem.mp h
  exact ⟨List.mem_map.mpr ⟨es[i], List.getElem_mem hi, beq_iff_eq.mp hp⟩, hi⟩

theorem findModule_none (h : findModule es p = none) : p ∉ paths es := by
  intro hp
  obtain ⟨m, hm, hmp⟩ := List.mem_map.mp hp
  have hne := List.findIdx?_eq_none_iff.mp h m hm
  rw [hmp, beq_self_eq_true] at hne
  cases hne

/-- A table with each path once, and with dependencies that are in it. -/
structure Building (es : List Entry) : Prop where
  once : (paths es).Nodup
  fits : ∀ p ∈ paths es, fit p = p
  inRange : ∀ m ∈ es, ∀ dep ∈ m.deps, dep < es.length

theorem Building.pushDep {dep : Nat} (h : Building es) (hdep : dep < es.length) :
    Building (pushDep es i dep) := by
  refine ⟨by rw [paths_pushDep]; exact h.once, by rw [paths_pushDep]; exact h.fits, ?_⟩
  intro m hm d hd
  rw [pushDep_length]
  obtain ⟨j, hj⟩ := List.mem_iff_getElem?.mp hm
  rw [Build.pushDep, List.getElem?_modify] at hj
  obtain ⟨m', hm', rfl⟩ := Option.map_eq_some_iff.mp hj
  have hmem := List.mem_of_getElem? hm'
  split_ifs at hd
  · rcases List.mem_append.mp hd with hd | hd
    · exact h.inRange m' hmem d hd
    · exact List.mem_singleton.mp hd ▸ hdep
  · exact h.inRange m' hmem d hd

theorem Building.snoc (h : Building es) (hp : fit p ∉ paths es) :
    Building (es ++ [newEntry p]) := by
  have hpath : paths [newEntry p] = [fit p] := rfl
  refine ⟨?_, ?_, ?_⟩
  · rw [paths_append, hpath]
    exact List.nodup_append.mpr ⟨h.once, List.nodup_singleton _, fun a ha b hb hab =>
      hp (List.mem_singleton.mp hb ▸ hab ▸ ha)⟩
  · intro q hq
    rw [paths_append, hpath, List.mem_append, List.mem_singleton] at hq
    rcases hq with hq | rfl
    · exact h.fits q hq
    · exact fit_fit p
  · intro m hm dep hdep
    rw [List.length_append]
    rcases List.mem_append.mp hm with hm | hm
    · exact Nat.lt_add_right _ (h.inRange m hm dep hdep)
    · rw [List.mem_singleton.mp hm] at hdep
      exact absurd hdep List.not_mem_nil

/-- What is added for some sources: they are in the table, whatever is new is used by them, directly
or through others, and what a new one uses is there too. -/
structure Adds (fs : FileSystem F) (sources : List Path) (es es' : List Entry) : Prop where
  building : Building es'
  length_le : es.length ≤ es'.length
  kept : paths es ⊆ paths es'
  added : sources ⊆ paths es'
  reached : ∀ q ∈ paths es', q ∈ paths es ∨
    ∃ p ∈ sources, ReflTransGen (fun p q => q ∈ fs.uses p) p q
  closed : ∀ q ∈ paths es', q ∉ paths es → fs.uses q ⊆ paths es'

theorem Adds.nil (h : Building es) : Adds fs [] es es :=
  ⟨h, Nat.le_refl _, List.Subset.refl _, List.nil_subset _, fun _ hq => .inl hq,
    fun _ hq hnot => absurd hq hnot⟩

theorem Adds.append {ps qs : List Path} {es₁ es₂ : List Entry} (h : Adds fs ps es es₁)
    (h' : Adds fs qs es₁ es₂) : Adds fs (ps ++ qs) es es₂ where
  building := h'.building
  length_le := h.length_le.trans h'.length_le
  kept := List.Subset.trans h.kept h'.kept
  added := List.append_subset.mpr ⟨List.Subset.trans h.added h'.kept, h'.added⟩
  reached := by
    intro q hq
    rcases h'.reached q hq with hq | ⟨p, hp, hpq⟩
    · rcases h.reached q hq with hq | ⟨p, hp, hpq⟩
      · exact .inl hq
      · exact .inr ⟨p, List.mem_append_left _ hp, hpq⟩
    · exact .inr ⟨p, List.mem_append_right _ hp, hpq⟩
  closed := by
    intro q hq hnot
    by_cases hq₁ : q ∈ paths es₁
    · exact List.Subset.trans (h.closed q hq₁ hnot) h'.kept
    · exact h'.closed q hq hq₁

theorem Adds.pushDep {ps : List Path} {dep : Nat} (h : Adds fs ps es es')
    (hdep : dep < es'.length) :
    Adds fs ps es (pushDep es' i dep) where
  building := h.building.pushDep hdep
  length_le := by rw [pushDep_length]; exact h.length_le
  kept := by rw [paths_pushDep]; exact h.kept
  added := by rw [paths_pushDep]; exact h.added
  reached := by rw [paths_pushDep]; exact h.reached
  closed := by rw [paths_pushDep]; exact h.closed

/-- A new source is added with what it uses. -/
theorem Adds.source (h : Adds fs (fs.uses (fit p)) (es ++ [newEntry p]) es') :
    Adds fs [fit p] es es' := by
  have hnew : paths (es ++ [newEntry p]) = paths es ++ [fit p] := paths_append ..
  have hkept := h.kept
  rw [hnew] at hkept
  obtain ⟨hes, hp⟩ := List.append_subset.mp hkept
  refine ⟨h.building, ?_, hes, hp, fun q hq => ?_, fun q hq hnot => ?_⟩
  · have hle := h.length_le
    rw [List.length_append] at hle
    omega
  · rcases h.reached q hq with hq | ⟨u, hu, huq⟩
    · rw [hnew] at hq
      rcases List.mem_append.mp hq with hq | hq
      · exact .inl hq
      · exact .inr ⟨fit p, List.mem_singleton_self _, List.mem_singleton.mp hq ▸ .refl⟩
    · exact .inr ⟨fit p, List.mem_singleton_self _, .head hu huq⟩
  · by_cases hq' : q ∈ paths (es ++ [newEntry p])
    · rw [hnew] at hq'
      obtain rfl := List.mem_singleton.mp ((List.mem_append.mp hq').resolve_left hnot)
      exact h.added
    · exact h.closed q hq hq'

/-! ## The scan -/

/-- What a call of `add_module` may be relied on for. -/
def AddsModules (fs : FileSystem F) (add : Path → List Entry → Option (Nat × List Entry)) : Prop :=
  ∀ {p es i es'}, Building es → fit p = p → add p es = some (i, es') →
    Adds fs [p] es es' ∧ i < es'.length

theorem scanLines_adds {add : Path → List Entry → Option (Nat × List Entry)}
    (hadd : AddsModules fs add) {dir : Path} {lines : List (List Char)} :
    ∀ {es : List Entry}, Building es → scanLines fs add i dir lines es = some es' →
      Adds fs (lines.filterMap (fs.useTarget dir)) es es' := by
  induction lines with
  | nil =>
    intro es h hrun
    obtain rfl := Option.some.inj hrun
    exact .nil h
  | cons line rest ih =>
    intro es h hrun
    rw [scanLines] at hrun
    cases hu : fs.useTarget dir line with
    | none =>
      rw [List.filterMap_cons_none hu]
      rw [hu] at hrun
      exact ih h hrun
    | some p =>
      rw [List.filterMap_cons_some hu]
      rw [hu] at hrun
      simp only at hrun
      cases ha : add p es with
      | none =>
        rw [ha] at hrun
        cases hrun
      | some r =>
        rw [ha] at hrun
        obtain ⟨hadds, hlt⟩ := hadd h (fit_useTarget hu) ha
        have hpush : Adds fs [p] es (pushDep r.2 i r.1) := hadds.pushDep hlt
        exact hpush.append (ih hpush.building hrun)

/-- **What `add_module` adds.** The root is the only path that need not fit into its buffer. -/
theorem addModule_adds {fuel : Nat} (hes : Building es) (hp : fit p = p ∨ es = [])
    (h : addModule fs fuel p es = some (i, es')) : Adds fs [fit p] es es' ∧ i < es'.length := by
  induction fuel generalizing p es i es' with
  | zero => cases h
  | succ fuel ih =>
    rw [addModule] at h
    cases hfind : findModule es p with
    | some j =>
      rw [hfind] at h
      obtain ⟨rfl, rfl⟩ := Prod.mk.inj (Option.some.inj h)
      obtain ⟨hmem, hlt⟩ := findModule_some hfind
      have hfit := hp.resolve_right (by rintro rfl; exact absurd hmem List.not_mem_nil)
      rw [hfit]
      refine ⟨⟨hes, Nat.le_refl _, List.Subset.refl _, ?_, fun _ hq => .inl hq,
        fun _ hq hnot => absurd hq hnot⟩, hlt⟩
      exact List.cons_subset.mpr ⟨hmem, List.nil_subset _⟩
    | none =>
      rw [hfind] at h
      obtain ⟨es₁, hrun, heq⟩ := Option.map_eq_some_iff.mp h
      obtain ⟨rfl, rfl⟩ := Prod.mk.inj heq
      have hnot : fit p ∉ paths es := by
        rcases hp with hp | rfl
        · rw [hp]
          exact findModule_none hfind
        · exact List.not_mem_nil
      have hadd : AddsModules fs (addModule fs fuel) := by
        intro q es i es' hes hq hrun
        have hq' := ih hes (.inl hq) hrun
        rwa [hq] at hq'
      have hlines := scanLines_adds hadd (hes.snoc hnot) hrun
      have huses : (fs.sourceLines (newEntry p).nibPath).filterMap
          (fs.useTarget (newEntry p).dir) = fs.uses (fit p) := by
        rw [FileSystem.uses, getDir_fit]
        rfl
      rw [huses] at hlines
      refine ⟨hlines.source, ?_⟩
      have hle := hlines.length_le
      rw [List.length_append, List.length_singleton] at hle
      omega

/-! ## The end of the scan -/

/-- The paths that fit into the buffers. -/
def fitting : Set Path := {p | p.length ≤ 255}

theorem fitting_finite : fitting.Finite := by
  have : Finite Char := Finite.of_injective
    (fun c : Char => (⟨c.toNat, c.val.toBitVec.isLt⟩ : Fin _))
    fun a b h => Char.toNat_inj.mp (Fin.mk.inj h)
  exact List.finite_length_le Char 255

theorem Building.length_le (h : Building es) : es.length ≤ fitting.ncard := by
  have hsub : (↑(paths es).toFinset : Set Path) ⊆ fitting := by
    intro p hp
    have hfit := h.fits p (by simpa using hp)
    show p.length ≤ 255
    rw [← hfit, fit, List.length_take]
    exact Nat.min_le_left _ _
  have hle := Set.ncard_le_ncard hsub fitting_finite
  rwa [Set.ncard_coe_finset, List.toFinset_card_of_nodup h.once, paths_length] at hle

theorem scanLines_some {add : Path → List Entry → Option (Nat × List Entry)}
    (hadd : AddsModules fs add) {n : Nat}
    (hsome : ∀ {p es}, Building es → fit p = p → n ≤ es.length → ∃ r, add p es = some r)
    {dir : Path} {lines : List (List Char)} : ∀ {es : List Entry}, Building es → n ≤ es.length →
      ∃ es', scanLines fs add i dir lines es = some es' := by
  induction lines with
  | nil => exact fun _ _ => ⟨_, rfl⟩
  | cons line rest ih =>
    intro es h hn
    rw [scanLines]
    cases hu : fs.useTarget dir line with
    | none => exact ih h hn
    | some p =>
      obtain ⟨r, hr⟩ := hsome h (fit_useTarget hu) hn
      obtain ⟨hadds, hlt⟩ := hadd h (fit_useTarget hu) hr
      simp only [hr]
      exact ih (hadds.building.pushDep hlt) (by
        rw [pushDep_length]
        exact hn.trans hadds.length_le)

/-- The recursion goes no deeper than there are paths left. -/
theorem addModule_some : ∀ {fuel : Nat} {p : Path} {es : List Entry}, Building es →
    fit p = p ∨ es = [] → fitting.ncard < es.length + fuel →
      ∃ r, addModule fs fuel p es = some r
  | 0, _, _, h, _, hfuel => absurd h.length_le (by omega)
  | fuel + 1, p, es, h, hp, hfuel => by
    rw [addModule]
    cases hfind : findModule es p with
    | some j => exact ⟨_, rfl⟩
    | none =>
      have hnot : fit p ∉ paths es := by
        rcases hp with hp | rfl
        · rw [hp]
          exact findModule_none hfind
        · exact List.not_mem_nil
      have hadd : AddsModules fs (addModule fs fuel) := by
        intro q es i es' hes hq hrun
        have hq' := addModule_adds hes (.inl hq) hrun
        rwa [hq] at hq'
      obtain ⟨es', hes'⟩ := @scanLines_some _ fs es.length _ hadd (es.length + 1)
        (fun hes hq hn => addModule_some hes (.inl hq) (by omega)) (newEntry p).dir
        (fs.sourceLines (newEntry p).nibPath) _ (h.snoc hnot)
        (by rw [List.length_append, List.length_singleton])
      exact ⟨_, by simp only [hes']; rfl⟩

/-! ## The table of a program -/

theorem building_nil : Building [] :=
  ⟨List.nodup_nil, fun _ hp => absurd hp List.not_mem_nil, fun _ hm => absurd hm List.not_mem_nil⟩

theorem Discovers.adds (h : Discovers fs root es) : Adds fs [fit root] [] es := by
  obtain ⟨fuel, i, hrun⟩ := h
  exact (addModule_adds building_nil (.inr rfl) hrun).1

theorem exists_discovers (fs : FileSystem F) (root : Path) : ∃ es, Discovers fs root es := by
  obtain ⟨r, hr⟩ := @addModule_some F fs (fitting.ncard + 1) root [] building_nil (.inr rfl)
    (by rw [List.length_nil]; omega)
  exact ⟨r.2, _, _, hr⟩

/-- **The table has exactly the paths that the `use` lines spell.** -/
theorem discovers_iff (h : Discovers fs root es) : p ∈ paths es ↔ Spelled fs root p := by
  have hadds := h.adds
  constructor
  · intro hp
    rcases hadds.reached p hp with hp | ⟨q, hq, hqp⟩
    · exact absurd hp List.not_mem_nil
    · obtain rfl := List.mem_singleton.mp hq
      clear hp
      induction hqp with
      | refl => exact .root
      | tail _ huse ih => exact .use ih huse
  · intro hp
    induction hp with
    | root => exact hadds.added (List.mem_singleton_self _)
    | use _ huse ih => exact hadds.closed _ ih List.not_mem_nil huse

/-! ## Module identity -/

theorem file_eq_some {t : ModuleTable} {f : F} : t.file fs i = some f ↔
    ∃ p, (paths t.entries)[i]? = some p ∧ fs.stat p = some f := by
  unfold ModuleTable.file paths
  rw [List.getElem?_map]
  cases t.entries[i]? <;> simp

/-- **The table has each file once exactly if no two spellings lead to one file.** -/
theorem scan_once_iff (fs : FileSystem F) (root : Path) :
    (∃ t : ModuleTable, Discovers fs root t.entries) ∧
      ∀ t : ModuleTable, Discovers fs root t.entries →
        (OncePerFile fs t ↔ OneSpelling fs root) := by
  constructor
  · obtain ⟨es, hes⟩ := exists_discovers fs root
    exact ⟨⟨es, hes.adds.building.inRange⟩, hes⟩
  intro t ht
  have honce := ht.adds.building.once
  constructor
  · intro h p q f hp hq hpf hqf
    obtain ⟨i, hi⟩ := List.mem_iff_getElem?.mp ((discovers_iff ht).mpr hp)
    obtain ⟨j, hj⟩ := List.mem_iff_getElem?.mp ((discovers_iff ht).mpr hq)
    obtain rfl := h.inTable i j f (file_eq_some.mpr ⟨p, hi, hpf⟩) (file_eq_some.mpr ⟨q, hj, hqf⟩)
    exact Option.some.inj (hi.symm.trans hj)
  · intro h
    have hfile : ∀ i j f, t.file fs i = some f → t.file fs j = some f → i = j := by
      intro i j f hi hj
      obtain ⟨p, hp, hpf⟩ := file_eq_some.mp hi
      obtain ⟨q, hq, hqf⟩ := file_eq_some.mp hj
      obtain rfl := h p q f ((discovers_iff ht).mp (List.mem_of_getElem? hp))
        ((discovers_iff ht).mp (List.mem_of_getElem? hq)) hpf hqf
      exact (List.getElem?_inj (List.getElem?_eq_some_iff.mp hp).1 honce).mp (hp.trans hq.symm)
    refine ⟨hfile, fun r hr => ?_⟩
    obtain ⟨r', hr', hperm, -⟩ := topoSort_order t
    obtain rfl := Option.some.inj (hr.symm.trans hr')
    exact (hperm.nodup_iff.mpr List.nodup_range).filterMap hfile

/-- `main` uses `a` and `sub/b`, which uses `../a`. -/
def diamond : FileTree :=
  [ (["main.nib".toList], "use \"a.nif\";\nuse \"sub/b.nif\";\n".toList),
    (["a.nib".toList], []),
    (["sub".toList, "b.nib".toList], "use \"../a.nif\";\n".toList) ]

def diamondTable : List Entry :=
  [ { newEntry "main.nib".toList with deps := [1, 2] },
    newEntry "./a.nib".toList,
    { newEntry "./sub/b.nib".toList with deps := [3] },
    newEntry "./sub/../a.nib".toList ]

theorem diamond_twice : ∃ t : ModuleTable,
    Discovers diamond.fileSystem "main.nib".toList t.entries ∧
      ¬OncePerFile diamond.fileSystem t := by
  refine ⟨⟨diamondTable, by decide⟩, ⟨5, 0, by decide⟩, fun h => ?_⟩
  have hfile := h.inTable 1 3 ["a.nib".toList] (by decide) (by decide)
  exact absurd hfile (by decide)

/-- `main` uses `a`, which is beside it. -/
def twoSources : FileTree :=
  [(["main.nib".toList], "use \"a.nif\";\n".toList), (["a.nib".toList], [])]

def twoSourcesTable : ModuleTable where
  entries := [{ newEntry "main.nib".toList with deps := [1] }, newEntry "./a.nib".toList]
  inRange := by decide

theorem twoSources_once : OncePerFile twoSources.fileSystem twoSourcesTable ↔
    OneSpelling twoSources.fileSystem "main.nib".toList :=
  (scan_once_iff twoSources.fileSystem "main.nib".toList).2 twoSourcesTable
    ⟨3, 0, by decide⟩

end Nib.Build
