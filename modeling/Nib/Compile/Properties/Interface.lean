import Nib.Compile.Properties.Nif

/-!
# Interfaces

* `lookup_same` — both modules find the entry of an exported declaration
* `structSizeIn_same` — structures have one size, down to any depth
* `interface_same` — when an import gives what the module has
* `types_of_same` — the types of what it gives
-/

namespace Nib.Compile

open Infra Asm Nib.Bind NifState

/-! ## Lookups -/

theorem concat_flatMap {α : Type} {g : NifTables → List α} (hnil : g {} = [])
    (happ : ∀ a b : NifTables, g (a.append b) = g a ++ g b) :
    ∀ tables : List NifTables, g (NifTables.concat tables) = tables.flatMap g
  | [] => hnil
  | t :: tables => by
    rw [NifTables.concat, List.foldr_cons, happ, List.flatMap_cons]
    exact congrArg (g t ++ ·) (concat_flatMap hnil happ tables)

/-- One of the tables: what a declaration is there, under its own key. -/
structure IsTable {α : Type} (g : NifTables → List α) (key : α → Nat × String) : Prop where
  nil : g {} = []
  append : ∀ a b : NifTables, g (a.append b) = g a ++ g b
  own : ∀ d x, x ∈ g (ownTables d) → declKey d = key x ∧ g (ownTables d) = [x]
  written : ∀ d x, x ∈ g (writtenTables d) ↔ isExported d = true ∧ x ∈ g (ownTables d)

theorem isTable_functions : IsTable NifTables.functions fun f => (0, f.name) where
  nil := rfl
  append _ _ := rfl
  own d x hx := by cases d <;> simp_all [ownTables, declKey, NifFn.sig]
  written d x := by
    cases d with
    | fn f isApi isPub =>
      cases isApi <;> cases isPub <;> simp [writtenTables, ownTables, isExported]
    | externFn f hasBody isPub =>
      cases hasBody <;> cases isPub <;> simp [writtenTables, ownTables, isExported]
    | _ => simp [writtenTables, ownTables]

theorem isTable_structs : IsTable NifTables.structs fun s => (1, s.name) where
  nil := rfl
  append _ _ := rfl
  own d x hx := by cases d <;> simp_all [ownTables, declKey, StructSig.kept]
  written d x := by cases d <;> simp [writtenTables, ownTables, isExported]

theorem isTable_globals : IsTable NifTables.globals fun g => (2, g.1) where
  nil := rfl
  append _ _ := rfl
  own d x hx := by cases d <;> simp_all [ownTables, declKey, StructSig.kept]
  written d x := by cases d <;> simp [writtenTables, ownTables, isExported]

theorem isTable_constants : IsTable NifTables.constants fun k => (3, k.1) where
  nil := rfl
  append _ _ := rfl
  own d x hx := by cases d <;> simp_all [ownTables, declKey, StructSig.kept]
  written d x := by cases d <;> simp [writtenTables, ownTables, isExported]

theorem find?_unique {α : Type} {l : List α} {q : α → Bool} {x : α} (hx : x ∈ l) (hq : q x = true)
    (hu : ∀ y ∈ l, q y = true → y = x) : l.find? q = some x := by
  cases h : l.find? q with
  | none => exact absurd hq (List.find?_eq_none.mp h x hx)
  | some y => rw [hu y (List.mem_of_find?_eq_some h) (List.find?_some h)]

section

variable {m : NifModule} {α : Type} {g : NifTables → List α} {key : α → Nat × String}

/-- What is found is what the first declaration of the key is. -/
theorem find?_first (hg : IsTable g key) {x : α} {q : α → Bool}
    (hq : ∀ y, q y = true ↔ key y = key x) : ∀ {decls : List NifDecl} {d : NifDecl},
    decls.find? (fun e => declKey e == key x) = some d → g (ownTables d) = [x] →
    (decls.flatMap fun d => g (ownTables d)).find? q = some x
  | [], _, h, _ => by cases h
  | e :: decls, d, h, hx => by
    rw [List.flatMap_cons, List.find?_append]
    by_cases hk : declKey e = key x
    · rw [List.find?_cons_of_pos (by simpa using hk), Option.some.injEq] at h
      rw [h, hx]
      simp [(hq x).mpr rfl]
    · rw [List.find?_cons_of_neg (by simpa using hk)] at h
      have hnone : (g (ownTables e)).find? q = none := by
        refine List.find?_eq_none.mpr fun y hy hqy => ?_
        exact hk ((hg.own e y hy).1.trans ((hq y).mp hqy))
      rw [hnone]
      exact find?_first hg hq h hx

/-- The first declaration of the key of an exported one. -/
theorem exists_first (h : Readable m) {d : NifDecl} (hd : d ∈ m.decls)
    (he : isExported d = true) :
    ∃ d', m.decls.find? (fun e => declKey e == declKey d) = some d' ∧
      ownTables d' = ownTables d := by
  cases hf : m.decls.find? fun e => declKey e == declKey d with
  | none => exact absurd (List.find?_eq_none.mp hf d hd) (by simp)
  | some d' => exact ⟨d', rfl, h.first d hd he d' hf⟩

/-- Both modules find the entry of an exported declaration. -/
theorem lookup_same (hg : IsTable g key) (h : Readable m) {d : NifDecl} (hd : d ∈ m.decls)
    (he : isExported d = true) {x : α} (hx : x ∈ g (ownTables d)) {q : α → Bool}
    (hq : ∀ y, q y = true ↔ key y = key x) :
    (g (NifTables.concat (m.decls.map writtenTables))).find? q = some x ∧
      (g (NifTables.concat (m.decls.map ownTables))).find? q = some x := by
  obtain ⟨hkey, hown⟩ := hg.own d x hx
  obtain ⟨d₀, hfirst, hsame⟩ := exists_first h hd he
  rw [hkey] at hfirst
  rw [concat_flatMap hg.nil hg.append, concat_flatMap hg.nil hg.append, List.flatMap_map,
    List.flatMap_map]
  refine ⟨find?_unique ?_ ((hq x).mpr rfl) ?_, find?_first hg hq hfirst (by rw [hsame, hown])⟩
  · exact List.mem_flatMap.mpr ⟨d, hd, (hg.written d x).mpr ⟨he, hx⟩⟩
  · -- another exported declaration of the key is the same as the first one
    intro y hy hk
    obtain ⟨d', hd', hy⟩ := List.mem_flatMap.mp hy
    obtain ⟨he', hy⟩ := (hg.written d' y).mp hy
    obtain ⟨hkey', hown'⟩ := hg.own d' y hy
    obtain ⟨d₁, hfirst', hsame'⟩ := exists_first h hd' he'
    rw [hkey', (hq y).mp hk, hfirst, Option.some.injEq] at hfirst'
    rw [← hsame', ← hfirst', hsame, hown] at hown'
    exact (List.cons.inj hown').1.symm

/-- A key that no declaration has is not found. -/
theorem lookup_none (hg : IsTable g key) {q : α → Bool}
    (hq : ∀ d ∈ m.decls, ∀ y ∈ g (ownTables d), q y = false) :
    (g (NifTables.concat (m.decls.map writtenTables))).find? q = none ∧
      (g (NifTables.concat (m.decls.map ownTables))).find? q = none := by
  rw [concat_flatMap hg.nil hg.append, concat_flatMap hg.nil hg.append, List.flatMap_map,
    List.flatMap_map]
  refine ⟨List.find?_eq_none.mpr fun y hy => ?_, List.find?_eq_none.mpr fun y hy => ?_⟩
  · obtain ⟨d, hd, hy⟩ := List.mem_flatMap.mp hy
    simp [hq d hd y ((hg.written d y).mp hy).2]
  · obtain ⟨d, hd, hy⟩ := List.mem_flatMap.mp hy
    simp [hq d hd y hy]

end

/-! ## Sizes -/

theorem typeSizeWith_congr {f f' : String → Int} :
    ∀ {t : Ty}, (∀ name ∈ typeStructs t, f name = f' name) → typeSizeWith f t = typeSizeWith f' t
  | .array e n, h => congrArg (· * n) (typeSizeWith_congr (t := e) h)
  | .struct name, h => h name List.mem_cons_self
  | .u8, _ | .u16, _ | .u32, _ | .seg, _ | .bool, _ | .bcd _, _ | .far, _ | .void, _ => rfl

theorem fieldPlace_congr {size size' : Ty → Int} {f : Field}
    (h : ∀ t, f.type = some t → size t = size' t) (aligned : Bool) (bitPos : Int) :
    fieldPlace size aligned bitPos f = fieldPlace size' aligned bitPos f := by
  unfold fieldPlace
  cases ht : f.type with
  | none => rfl
  | some t => simp [h t ht]

theorem foldl_fieldPlace_congr {size size' : Ty → Int} (aligned : Bool) :
    ∀ {fields : List Field}, (∀ f ∈ fields, ∀ t, f.type = some t → size t = size' t) →
    ∀ bitPos : Int, fields.foldl (fun bitPos f => (fieldPlace size aligned bitPos f).2) bitPos =
      fields.foldl (fun bitPos f => (fieldPlace size' aligned bitPos f).2) bitPos
  | [], _, _ => rfl
  | f :: fields, h, bitPos => by
    rw [List.foldl_cons, List.foldl_cons, fieldPlace_congr (h f List.mem_cons_self)]
    exact foldl_fieldPlace_congr aligned (fun e he => h e (List.mem_cons_of_mem f he)) _

theorem findField_congr {size size' : Ty → Int} (aligned : Bool) (fieldName : String)
    (rawAccess : Bool) : ∀ {fields : List Field},
    (∀ f ∈ fields, ∀ t, f.type = some t → size t = size' t) → ∀ bitPos : Int,
    findField size aligned fieldName rawAccess bitPos fields =
      findField size' aligned fieldName rawAccess bitPos fields
  | [], _, _ => rfl
  | f :: fields, h, bitPos => by
    have hrest := findField_congr aligned fieldName rawAccess
      (fun e he => h e (List.mem_cons_of_mem f he)) (fieldPlace size' aligned bitPos f).2
    rw [findField, findField, fieldPlace_congr (h f List.mem_cons_self)]
    simp only [hrest]

section

variable {m : NifModule}

theorem closed_field (h : Readable m) {s : StructSig} (hs : .struct s true ∈ m.decls) {f : Field}
    (hf : f ∈ s.fields) {t : Ty} (ht : f.type = some t) :
    ∀ name ∈ typeStructs t, ClosedName m name := by
  have hmem : t ∈ declTypes (.struct s true) := by
    refine List.mem_cons_of_mem _ (List.mem_flatMap.mpr ⟨f, hf, ?_⟩)
    simp [ht]
  exact h.closed _ hs rfl t hmem

theorem structSizeIn_same (h : Readable m) : ∀ (depth : Nat) {name : String},
    ClosedName m name →
    structSizeIn (NifTables.concat (m.decls.map writtenTables)).structs depth name =
      structSizeIn (NifTables.concat (m.decls.map ownTables)).structs depth name
  | 0, _, _ => rfl
  | depth + 1, name, hc => by
    -- the module has the structure, and both find it, or neither does
    by_cases hex : ∃ s isPub, NifDecl.struct s isPub ∈ m.decls ∧ symName s.name = name
    · obtain ⟨s, isPub, hs, hname⟩ := hex
      have hpub := hc s isPub hs hname
      obtain ⟨hw, ho⟩ := lookup_same isTable_structs h hpub rfl (x := s.kept) List.mem_cons_self
        (q := fun st => st.name == name) (by simp [StructSig.kept, hname])
      rw [structSizeIn, structSizeIn, hw, ho]
      refine congrArg (fun bits => alignBits bits / 8) ?_
      refine foldl_fieldPlace_congr s.aligned (fun f hf t ht => ?_) 0
      exact typeSizeWith_congr fun n hn =>
        structSizeIn_same h depth (closed_field h hpub hf ht n hn)
    · obtain ⟨hw, ho⟩ := lookup_none (m := m) isTable_structs (q := fun st => st.name == name) (by
        intro d hd y hy
        cases d with
        | struct s isPub =>
          have hy : y = s.kept := by simpa [ownTables] using hy
          subst hy
          exact beq_eq_false_iff_ne.mpr fun hn => hex ⟨s, isPub, hd, hn⟩
        | _ => simp [ownTables] at hy)
      rw [structSizeIn, structSizeIn, hw, ho]

/-- The types of closed names have one size. -/
theorem sizeIn_same (h : Readable m) (depth : Nat) {t : Ty}
    (hc : ∀ name ∈ typeStructs t, ClosedName m name) :
    (NifTables.concat (m.decls.map writtenTables)).sizeIn depth t =
      (NifTables.concat (m.decls.map ownTables)).sizeIn depth t :=
  typeSizeWith_congr fun name hn => structSizeIn_same h depth (hc name hn)

end

/-! ## Interfaces -/

theorem symLookup_compiler (tables : NifTables) (name : String) :
    (symLookup tables.compiler name).map Symbol.type =
      (tables.globals.find? fun g => g.1 == name).map fun g => some g.2 := by
  have hcomp : ((fun s : Symbol => s.name == name) ∘ fun g : String × Ty =>
      ({ name := g.1, type := some g.2, vreg := 0, isGlobal := true } : Symbol)) =
      fun g => g.1 == name := rfl
  simp only [symLookup, NifTables.compiler, List.findSome?_cons, List.findSome?_nil,
    List.find?_map, hcomp]
  cases tables.globals.find? fun g => g.1 == name with
  | none => rfl
  | some g => rfl

theorem sameDecl_fn {m : NifModule} (h : Readable m) {d : NifDecl} (hd : d ∈ m.decls)
    (he : isExported d = true) {f : NifFn} (hf : f.sig ∈ (ownTables d).functions)
    (hr : FnReads f) :
    findFunction (NifTables.concat (m.decls.map writtenTables)).compiler f.name =
      findFunction (NifTables.concat (m.decls.map ownTables)).compiler f.name := by
  obtain ⟨hw, ho⟩ := lookup_same isTable_functions h hd he hf
    (q := fun g => g.name == f.name) (by simp [NifFn.sig, symName_short hr.1])
  exact hw.trans ho.symm

theorem sameDecl {m : NifModule} (h : Readable m) {d : NifDecl} (hd : d ∈ m.decls)
    (he : isExported d = true) :
    SameDecl (NifTables.concat (m.decls.map ownTables))
      (NifTables.concat (m.decls.map writtenTables)) d := by
  cases d with
  | fn f isApi isPub => exact sameDecl_fn h hd he List.mem_cons_self (h.reads _ hd he)
  | externFn f hasBody isPub => exact sameDecl_fn h hd he List.mem_cons_self (h.reads _ hd he)
  | struct s isPub =>
    have hname : symName s.name = s.name := symName_short (h.reads _ hd he).1
    obtain ⟨hw, ho⟩ := lookup_same isTable_structs h hd he (x := s.kept) List.mem_cons_self
      (q := fun st => st.name == s.name) (by simp [StructSig.kept, hname])
    refine ⟨hw.trans ho.symm, fun depth fieldName rawAccess => ?_⟩
    have hpub : isPub = true := he
    subst hpub
    exact findField_congr s.aligned fieldName rawAccess (fun f hf t ht =>
      sizeIn_same h depth (closed_field h hd hf ht)) 0
  | global name t isPub =>
    have hname : symName name = name := symName_short (h.reads _ hd he).1
    obtain ⟨hw, ho⟩ := lookup_same isTable_globals h hd he (x := (symName name, t))
      List.mem_cons_self (q := fun g => g.1 == name) (by simp [hname])
    simp only [SameDecl, symLookup_compiler, hw, ho]
  | const name value isPub =>
    have hname : symName name = name := symName_short (h.reads _ hd he)
    obtain ⟨hw, ho⟩ := lookup_same isTable_constants h hd he (x := (symName name, value))
      List.mem_cons_self (q := fun k => k.1 == name) (by simp [hname])
    exact congrArg (Option.map (·.2)) (hw.trans ho.symm)

/-- **An import of a readable interface gives what the module has.** -/
theorem interface_same (m : NifModule) (h : Readable m) : SameInterface m := by
  intro d hd he
  rw [import_tables h]
  exact ⟨sameDecl h hd he, fun t ht depth => sizeIn_same h depth (h.closed d hd he t ht)⟩

/-- The other direction, for types: what an import gives as the module has it has types that can be
imported. -/
theorem types_of_same (m : NifModule) (h : SameInterface m) {d : NifDecl} (hd : d ∈ m.decls)
    (he : isExported d = true) :
    DeclImported (NifTables.concat (m.decls.map ownTables)) d := by
  have htypes := import_types (nifLines m.decls)
  have hsame := (h d hd he).1
  cases d with
  | fn f isApi isPub =>
    intro g hg
    exact htypes.functions g (List.mem_of_find?_eq_some (hsame.trans hg))
  | externFn f hasBody isPub =>
    intro g hg
    exact htypes.functions g (List.mem_of_find?_eq_some (hsame.trans hg))
  | struct s isPub =>
    intro st hst
    exact htypes.structs st (List.mem_of_find?_eq_some (hsame.1.trans hst))
  | global name t isPub =>
    intro u hu
    have hfound := hsame.trans hu
    rw [symLookup_compiler, Option.map_eq_some_iff] at hfound
    obtain ⟨g, hg, ht⟩ := hfound
    cases ht
    exact htypes.globals g (List.mem_of_find?_eq_some hg)
  | const name value isPub => trivial

def pointStruct : StructSig where
  name := "point"
  fields := [{ name := some "x", type := some .u16, bits := 0, isBits := false, asType := none }]
  aligned := false

def plotFn : NifFn where
  name := "plot"
  params := [{ vreg := 0, name := "p", type := .struct "point" }]
  returns := [{ type := .u8 }]

/-- `pub struct point { x: u16; }` and `pub fn plot(p: struct point) -> u8`. -/
def pointModule : NifModule where
  decls := [.struct pointStruct true, .fn plotFn false true]
  sound := by
    have hfield : ∀ f ∈ pointStruct.fields, FieldSound f := by
      intro f hf
      cases List.mem_singleton.mp hf
      exact
        { name := fun n hn => by cases hn; exact isName_of_check (by decide)
          bits := fun hb => by cases hb
          typed := fun _ => ⟨rfl, ⟨_, rfl⟩, _, rfl⟩
          type := fun t ht => by cases ht; trivial
          asType := fun t ht => by cases ht }
    intro d hd
    rcases List.mem_cons.mp hd with rfl | hd
    · exact ⟨isName_of_check (by decide), hfield⟩
    · cases List.mem_singleton.mp hd
      exact
        { name := isName_of_check (by decide)
          attrs := fun c hc => by cases hc
          params := fun p hp => by
            cases List.mem_singleton.mp hp
            exact (isName_of_check (by decide) : IsName "point".toList)
          returns := fun r hr => by
            cases List.mem_singleton.mp hr
            exact ⟨trivial, fun c hc => by cases hc⟩ }

theorem readable_pointModule : Readable pointModule where
  first d hd _ d' hf := by
    rcases List.mem_cons.mp hd with rfl | hd
    · have hfind : pointModule.decls.find? (fun e => declKey e == (1, "point")) =
          some (.struct pointStruct true) := rfl
      have hd' : some d' = some (NifDecl.struct pointStruct true) := hf.symm.trans hfind
      rw [Option.some.inj hd']
    · cases List.mem_singleton.mp hd
      have hfind : pointModule.decls.find? (fun e => declKey e == (0, "plot")) =
          some (.fn plotFn false true) := rfl
      have hd' : some d' = some (NifDecl.fn plotFn false true) := hf.symm.trans hfind
      rw [Option.some.inj hd']
  fits line hl := by
    have hall : (nifLines pointModule.decls).all (fun l => decide (l.length ≤ 510)) = true := by
      decide
    simpa using List.all_eq_true.mp hall line hl
  reads d hd _ := by
    rcases List.mem_cons.mp hd with rfl | hd
    · refine ⟨by decide, fun f hf => ?_⟩
      cases List.mem_singleton.mp hf
      refine ⟨fun n hn => ?_, fun t ht => ?_, fun t ht => ?_⟩
      · cases hn
        exact ⟨by decide, fun hb => by cases hb⟩
      · cases ht
        trivial
      · cases ht
    · cases List.mem_singleton.mp hd
      refine ⟨by decide, fun p hp => ?_, fun r hr => ?_⟩
      · cases List.mem_singleton.mp hp
        exact ⟨by decide, by decide⟩
      · cases List.mem_singleton.mp hr
        trivial
  closed d hd _ t ht name hn s isPub hs hname := by
    rcases List.mem_cons.mp hs with hs | hs
    · cases hs
      exact List.mem_cons_self
    · cases List.mem_singleton.mp hs

theorem interface_same_point : SameInterface pointModule :=
  interface_same pointModule readable_pointModule

/-- `pub bcd[4] total;` -/
def bcdModule : NifModule where
  decls := [.global "total" (.bcd 4) true]
  sound := by
    intro d hd
    cases List.mem_singleton.mp hd
    exact ⟨isName_of_check (by decide), by constructor <;> decide⟩

/-- It is imported as an array of elements without a size. -/
theorem bcd_not_same : ¬SameInterface bcdModule := by
  intro h
  have hglobal := (h _ (List.mem_singleton.mpr rfl) rfl).1
  have hlook : (symLookup (importNif (nifLines bcdModule.decls)).compiler "total").map Symbol.type ≠
      (symLookup (NifTables.concat (bcdModule.decls.map ownTables)).compiler "total").map
        Symbol.type := by decide
  exact hlook hglobal

end Nib.Compile
