import Mathlib
import Nib.Bind.Spec.Expansion

/-!
# The expansion reaches every module

* `expandRoot_finishes` — the fuel is enough
* `expandModule_entries` — a module that is expanded is met once, in source order
* `expandModule_closed` — the modules that it uses are expanded too
* `expansion_complete` — where the names are right, every reachable file is written
-/

namespace Nib.Bind

/-! ## Enough fuel -/

/-- The entries of modules that have not been expanded. -/
def unexpanded (order : List EmitOrder) (done : List Text) : Nat :=
  (order.filter fun e => !done.contains e.module).length

theorem unexpanded_mono (order : List EmitOrder) {done done' : List Text} (h : done ⊆ done') :
    unexpanded order done' ≤ unexpanded order done := by
  unfold unexpanded
  rw [← List.countP_eq_length_filter, ← List.countP_eq_length_filter]
  refine List.countP_mono_left fun e _ he => ?_
  simp only [Bool.not_eq_true', List.contains_eq_mem, decide_eq_false_iff_not] at he ⊢
  exact fun hm => he (h hm)

/-- Expanding a module that has entries leaves fewer of them. -/
theorem unexpanded_lt {order : List EmitOrder} {done : List Text} {e : EmitOrder} (he : e ∈ order)
    (hnew : e.module ∉ done) : unexpanded order (e.module :: done) < unexpanded order done := by
  have hsub : order.filter (fun x => !(e.module :: done).contains x.module) =
      (order.filter fun x => !done.contains x.module).filter fun x => !(x.module == e.module) := by
    rw [List.filter_filter]
    refine List.filter_congr fun x _ => ?_
    rw [List.contains_cons, Bool.not_or]
  unfold unexpanded
  rw [hsub]
  refine List.length_filter_lt_length_iff_exists.mpr ⟨e, ?_, by simp⟩
  rw [List.mem_filter]
  exact ⟨he, by simpa using hnew⟩

theorem expandEntries_finishes {expand : Text → List Text → Option (List Event × List Text)}
    (path : Text) {done₀ : List Text} (h : ∀ p done, done₀ ⊆ done →
      ∃ r, expand p done = some r ∧ done ⊆ r.2) :
    ∀ (es : List EmitOrder) {done : List Text}, done₀ ⊆ done →
      ∃ r, expandEntries expand path es done = some r ∧ done ⊆ r.2
  | [], done, _ => ⟨([], done), rfl, List.Subset.refl _⟩
  | ⟨module, .item i⟩ :: rest, done, hd => by
    obtain ⟨⟨events, done'⟩, hr, hsub⟩ := expandEntries_finishes path h rest hd
    exact ⟨(.item module i :: events, done'), by simp [expandEntries, hr], hsub⟩
  | ⟨_, .use useMod⟩ :: rest, done, hd => by
    obtain ⟨⟨sub, done'⟩, hr, hsub⟩ := h (usePath path useMod) done hd
    obtain ⟨⟨events, done''⟩, hr', hsub'⟩ :=
      expandEntries_finishes path h rest (List.Subset.trans hd hsub)
    exact ⟨(.use sub :: events, done''), by simp [expandEntries, hr, hr'],
      List.Subset.trans hsub hsub'⟩

/-- With more fuel than entries to come, the expansion has a result. -/
theorem expandModule_finishes (order : List EmitOrder) : ∀ (fuel : Nat) (path : Text)
    (done : List Text), unexpanded order done < fuel →
    ∃ r, expandModule order fuel path done = some r ∧ done ⊆ r.2
  | 0, _, _, h => absurd h (Nat.not_lt_zero _)
  | fuel + 1, path, done, h => by
    unfold expandModule
    dsimp only
    split
    · exact ⟨([], done), rfl, List.Subset.refl _⟩
    · rename_i hnew
      have hnew' : moduleName path ∉ done := by simpa using hnew
      have hcons : done ⊆ moduleName path :: done := List.subset_cons_self _ _
      -- a module without entries ends at once
      cases hes : order.filter fun e => e.module == moduleName path with
      | nil => exact ⟨([], moduleName path :: done), rfl, hcons⟩
      | cons e es =>
        have he : e ∈ order.filter fun e => e.module == moduleName path := by
          rw [hes]
          exact List.mem_cons_self ..
        obtain ⟨hmem, hmod⟩ := List.mem_filter.mp he
        have hmod' : e.module = moduleName path := by simpa using hmod
        have hlt := unexpanded_lt hmem (hmod' ▸ hnew')
        rw [hmod'] at hlt
        have hbelow : ∀ p done', moduleName path :: done ⊆ done' →
            ∃ r, expandModule order fuel p done' = some r ∧ done' ⊆ r.2 := by
          intro p done' hd
          have hle := unexpanded_mono order hd
          exact expandModule_finishes order fuel p done' (by omega)
        obtain ⟨r, hr, hsub⟩ :=
          expandEntries_finishes path hbelow (e :: es) (List.Subset.refl _)
        exact ⟨r, hr, List.Subset.trans hcons hsub⟩

theorem expandRoot_finishes (order : List EmitOrder) (root : Text) :
    ∃ events done, expandRoot order root = some (events, done) := by
  have hle : unexpanded order [] ≤ order.length := List.length_filter_le ..
  obtain ⟨⟨events, done⟩, h, -⟩ :=
    expandModule_finishes order (expandFuel order) root [] (by
      unfold expandFuel
      omega)
  exact ⟨events, done, h⟩

/-! ## What is met -/

/-- The items of some entries. -/
def entryItems (es : List EmitOrder) : List (Text × Item) :=
  es.filterMap fun e =>
    match e.kind with
    | .item i => some (e.module, i)
    | .use _ => none

theorem textLawful : LawfulBEq Text := inferInstance

attribute [local instance] textLawful

/-- What an expansion meets: the modules that it adds, each once and in source order. -/
def Meets (order : List EmitOrder) (events : List Event) (done done' : List Text) : Prop :=
  done ⊆ done' ∧ ∀ m, (eventsEntries events).filter (fun e => e.1 == m) =
    if m ∈ done' ∧ m ∉ done then orderItems order m else []

theorem meets_nil (order : List EmitOrder) (done : List Text) : Meets order [] done done := by
  refine ⟨List.Subset.refl _, fun m => ?_⟩
  rw [if_neg fun h => h.2 h.1]
  rfl

/-- The rest of a module that is being expanded. -/
theorem expandEntries_meets {order : List EmitOrder}
    {expand : Text → List Text → Option (List Event × List Text)} {path mod : Text}
    (hexpand : ∀ p done events done', expand p done = some (events, done') →
      Meets order events done done') :
    ∀ (es : List EmitOrder), (∀ e ∈ es, e.module = mod) → ∀ {done : List Text} {events : List Event}
      {done' : List Text}, mod ∈ done → expandEntries expand path es done = some (events, done') →
      done ⊆ done' ∧ ∀ m, (eventsEntries events).filter (fun e => e.1 == m) =
        if m = mod then entryItems es
        else if m ∈ done' ∧ m ∉ done then orderItems order m else []
  | [], _, done, events, done', _, h => by
    obtain ⟨rfl, rfl⟩ := Prod.mk.inj (Option.some.inj h)
    refine ⟨List.Subset.refl _, fun m => ?_⟩
    split
    · rfl
    · rw [if_neg fun h => h.2 h.1]
      rfl
  | ⟨module, .item i⟩ :: rest, hmod, done, events, done', hd, h => by
    obtain ⟨⟨events', done''⟩, hrest, heq⟩ := Option.bind_eq_some_iff.mp h
    obtain ⟨rfl, rfl⟩ := Prod.mk.inj (Option.some.inj heq)
    obtain ⟨hsub, hitems⟩ := expandEntries_meets hexpand rest
      (fun e he => hmod e (List.mem_cons_of_mem _ he)) hd hrest
    obtain rfl : module = mod := hmod _ (List.mem_cons_self ..)
    refine ⟨hsub, fun m => ?_⟩
    show ((module, i) :: eventsEntries events').filter _ = _
    by_cases hm : m = module
    · rw [if_pos hm, List.filter_cons_of_pos (by simp [hm]), hitems m, if_pos hm]
      rfl
    · have hne : (module == m) = false := by simpa using fun h => hm h.symm
      rw [List.filter_cons, hne, if_neg Bool.false_ne_true, hitems m, if_neg hm, if_neg hm]
  | ⟨module, .use useMod⟩ :: rest, hmod, done, events, done', hd, h => by
    obtain ⟨⟨sub, done₁⟩, hexp, h⟩ := Option.bind_eq_some_iff.mp h
    obtain ⟨⟨events', done₂⟩, hrest, heq⟩ := Option.bind_eq_some_iff.mp h
    obtain ⟨rfl, rfl⟩ := Prod.mk.inj (Option.some.inj heq)
    obtain ⟨hsub₁, hitems₁⟩ := hexpand _ _ _ _ hexp
    obtain ⟨hsub₂, hitems₂⟩ := expandEntries_meets hexpand rest
      (fun e he => hmod e (List.mem_cons_of_mem _ he)) (hsub₁ hd) hrest
    refine ⟨List.Subset.trans hsub₁ hsub₂, fun m => ?_⟩
    show (eventsEntries sub ++ eventsEntries events').filter _ = _
    rw [List.filter_append, hitems₁ m, hitems₂ m]
    by_cases hm : m = mod
    · -- the module itself is not expanded again
      subst hm
      rw [if_neg fun h => h.2 hd, if_pos rfl, if_pos rfl]
      rfl
    · rw [if_neg hm, if_neg hm]
      by_cases h₁ : m ∈ done₁
      · rw [if_neg fun h : m ∈ done₂ ∧ m ∉ done₁ => h.2 h₁, List.append_nil]
        have h₂ := hsub₂ h₁
        simp only [h₁, h₂, true_and]
      · have h₀ : m ∉ done := fun h => h₁ (hsub₁ h)
        rw [if_neg fun h : m ∈ done₁ ∧ m ∉ done => h₁ h.1, List.nil_append]
        simp only [h₁, h₀, not_false_eq_true, and_true]

/-- **A module that is expanded is met once, in source order.** -/
theorem expandModule_meets {order : List EmitOrder} : ∀ (fuel : Nat) {path : Text}
    {done : List Text} {events : List Event} {done' : List Text},
    expandModule order fuel path done = some (events, done') →
      Meets order events done done' ∧ moduleName path ∈ done'
  | 0, _, _, _, _, h => by cases h
  | fuel + 1, path, done, events, done', h => by
    unfold expandModule at h
    dsimp only at h
    split at h
    · rename_i hold
      obtain ⟨rfl, rfl⟩ := Prod.mk.inj (Option.some.inj h)
      exact ⟨meets_nil _ _, by simpa using hold⟩
    · rename_i hnew
      have hnew' : moduleName path ∉ done := by simpa using hnew
      obtain ⟨hsub, hitems⟩ := expandEntries_meets
        (fun p d ev d' h => (expandModule_meets fuel h).1) _
        (fun e he => by simpa using (List.mem_filter.mp he).2) (List.mem_cons_self ..) h
      have hself := hsub (List.mem_cons_self ..)
      refine ⟨⟨fun m hm => hsub (List.mem_cons_of_mem _ hm), fun m => ?_⟩, hself⟩
      rw [hitems m]
      by_cases hm : m = moduleName path
      · subst hm
        rw [if_pos rfl, if_pos ⟨hself, hnew'⟩]
        rfl
      · rw [if_neg hm]
        simp only [List.mem_cons, hm, false_or]

/-! ## What is reached -/

/-- The modules that have been expanded since: each at the end of a chain, and with all that it
uses. -/
def Closed (order : List EmitOrder) (root : Text) (done done' : List Text) : Prop :=
  ∀ m ∈ done', m ∈ done ∨ ∃ path above, Chain order root path above ∧ moduleName path = m ∧
    ∀ u, ⟨m, .use u⟩ ∈ order → moduleName (usePath path u) ∈ done'

/-- Later expansions keep what is closed. -/
theorem Closed.trans {order : List EmitOrder} {root : Text} {a b c : List Text}
    (h : Closed order root a b) (h' : Closed order root b c) (hsub : b ⊆ c) :
    Closed order root a c := by
  intro m hm
  rcases h' m hm with hb | hc
  · rcases h m hb with ha | ⟨path, above, hchain, hname, huse⟩
    · exact .inl ha
    · exact .inr ⟨path, above, hchain, hname, fun u hu => hsub (huse u hu)⟩
  · exact .inr hc

theorem expandEntries_closed {order : List EmitOrder} {root path : Text} {above : List Text}
    {expand : Text → List Text → Option (List Event × List Text)}
    (hchain : Chain order root path above)
    (hexpand : ∀ p done events done', expand p done = some (events, done') →
      (moduleName p ∉ done → ∃ above', Chain order root p above' ∧ above' ⊆ done) →
      Closed order root done done' ∧ done ⊆ done' ∧ moduleName p ∈ done') :
    ∀ (es : List EmitOrder), (∀ e ∈ es, e ∈ order ∧ e.module = moduleName path) →
      ∀ {done : List Text} {events : List Event} {done' : List Text},
      moduleName path :: above ⊆ done → expandEntries expand path es done = some (events, done') →
      Closed order root done done' ∧ done ⊆ done' ∧
        ∀ u, ⟨moduleName path, .use u⟩ ∈ es → moduleName (usePath path u) ∈ done'
  | [], _, done, events, done', _, h => by
    obtain ⟨rfl, rfl⟩ := Prod.mk.inj (Option.some.inj h)
    exact ⟨fun m hm => .inl hm, List.Subset.refl _, fun u hu => absurd hu List.not_mem_nil⟩
  | ⟨module, .item i⟩ :: rest, hes, done, events, done', hd, h => by
    obtain ⟨⟨events', done''⟩, hrest, heq⟩ := Option.bind_eq_some_iff.mp h
    obtain ⟨rfl, rfl⟩ := Prod.mk.inj (Option.some.inj heq)
    obtain ⟨hcl, hsub, huse⟩ := expandEntries_closed hchain hexpand rest
      (fun e he => hes e (List.mem_cons_of_mem _ he)) hd hrest
    refine ⟨hcl, hsub, fun u hu => ?_⟩
    rcases List.mem_cons.mp hu with hu | hu
    · cases hu
    · exact huse u hu
  | ⟨module, .use useMod⟩ :: rest, hes, done, events, done', hd, h => by
    obtain ⟨⟨sub, done₁⟩, hexp, h⟩ := Option.bind_eq_some_iff.mp h
    obtain ⟨⟨events', done₂⟩, hrest, heq⟩ := Option.bind_eq_some_iff.mp h
    obtain ⟨rfl, rfl⟩ := Prod.mk.inj (Option.some.inj heq)
    obtain ⟨hmem, hmod⟩ := hes _ (List.mem_cons_self ..)
    obtain rfl : module = moduleName path := hmod
    obtain ⟨hcl₁, hsub₁, hname⟩ := hexpand _ _ _ _ hexp fun hnew =>
      ⟨_, hchain.step hmem (fun h => hnew (hd h)), hd⟩
    obtain ⟨hcl₂, hsub₂, huse⟩ := expandEntries_closed hchain hexpand rest
      (fun e he => hes e (List.mem_cons_of_mem _ he)) (List.Subset.trans hd hsub₁) hrest
    refine ⟨hcl₁.trans hcl₂ hsub₂, List.Subset.trans hsub₁ hsub₂, fun u hu => ?_⟩
    rcases List.mem_cons.mp hu with hu | hu
    · cases hu
      exact hsub₂ hname
    · exact huse u hu

/-- **The modules that an expanded module uses are expanded too.** -/
theorem expandModule_closed {order : List EmitOrder} {root : Text} : ∀ (fuel : Nat) {path : Text}
    {done : List Text} {events : List Event} {done' : List Text},
    expandModule order fuel path done = some (events, done') →
      (moduleName path ∉ done → ∃ above, Chain order root path above ∧ above ⊆ done) →
      Closed order root done done' ∧ done ⊆ done' ∧ moduleName path ∈ done'
  | 0, _, _, _, _, h, _ => by cases h
  | fuel + 1, path, done, events, done', h, hpath => by
    unfold expandModule at h
    dsimp only at h
    split at h
    · rename_i hold
      obtain ⟨rfl, rfl⟩ := Prod.mk.inj (Option.some.inj h)
      exact ⟨fun m hm => .inl hm, List.Subset.refl _, by simpa using hold⟩
    · rename_i hnew
      obtain ⟨above, hchain, habove⟩ := hpath (by simpa using hnew)
      obtain ⟨hcl, hsub, huse⟩ := expandEntries_closed hchain
        (fun p d ev d' h hp => expandModule_closed fuel h hp) _
        (fun e he => ⟨(List.mem_filter.mp he).1, by simpa using (List.mem_filter.mp he).2⟩)
        (List.cons_subset_cons _ habove) h
      have hself := hsub (List.mem_cons_self ..)
      refine ⟨fun m hm => ?_, fun m hm => hsub (List.mem_cons_of_mem _ hm), hself⟩
      rcases hcl m hm with hm | hm
      · rcases List.mem_cons.mp hm with rfl | hm
        · exact .inr ⟨path, above, hchain, rfl, fun u hu =>
            huse u (List.mem_filter.mpr ⟨hu, by simp⟩)⟩
        · exact .inl hm
      · exact .inr hm

theorem reaches_expanded {files : List NirFile} {root : NirFile} (hroot : root ∈ files)
    (hnames : NamesRight files root) {events : List Event} {done : List Text}
    (h : expandRoot (parseFiles files) root.path = some (events, done)) {g : NirFile}
    (hg : Reaches files root g) : g ∈ files ∧ moduleName g.path ∈ done := by
  obtain ⟨hclosed, -, hself⟩ := expandModule_closed _ h
    fun _ => ⟨[], .root, List.nil_subset _⟩
  induction hg with
  | root => exact ⟨hroot, hself⟩
  | @step f g hf hu ih =>
    obtain ⟨hmem, hdone⟩ := ih
    obtain ⟨hg, text, htext, hpath⟩ := hu
    refine ⟨hg, ?_⟩
    rcases hclosed _ hdone with hm | ⟨path, above, hchain, hname, huse⟩
    · exact absurd hm List.not_mem_nil
    · have hentry : ⟨moduleName f.path, .use (useModule text)⟩ ∈ parseFiles files :=
        List.mem_flatMap.mpr ⟨f, hmem, List.mem_map.mpr ⟨_, htext, rfl⟩⟩
      rw [← hnames path above hchain f hmem hname.symm text htext g hg hpath]
      exact huse _ hentry

/-! ## What is written -/

theorem outLabels_append (xs ys : List OutLine) :
    outLabels (xs ++ ys) = outLabels xs ++ outLabels ys := List.filterMap_append ..

theorem outLabels_stmts (sts : List Asm.Statement) : outLabels (sts.map .stmt) = [] := by
  simp [outLabels]

theorem outLabels_item (i : Item) (body : ItemLines) (seg : Int) :
    outLabels (itemLines i body seg) = [i] := by
  show i :: outLabels (body.lines.map .stmt) = [i]
  rw [outLabels_stmts]

theorem emitAt_labels (s : EmitState) (seg off : Int) :
    outLabels (emitAt s seg off).out = outLabels s.out := by
  show outLabels (s.out ++ [orgLine seg off, segLine seg]) = _
  rw [outLabels_append]
  exact List.append_nil _

/-- An item is written with its label, if it has one. -/
theorem emitItem_labels (i : Item) (s : EmitState) :
    outLabels (emitItem i s).out = outLabels s.out ++ [i].filter Item.hasLabel := by
  cases i with
  | fn f =>
    show outLabels ((s.out ++ _) ++ itemLines _ _ _) = _
    rw [outLabels_append, outLabels_append, outLabels_item]
    split
    · simp [outLabels, orgLine, segLine]
      rfl
    · simp [outLabels]
      rfl
  | data d =>
    show outLabels (_ ++ itemLines _ _ _) = _
    rw [outLabels_append, outLabels_item]
    split
    · rw [emitAt_labels]
      rfl
    · split
      · show outLabels (s.out ++ [segLine _]) ++ _ = _
        rw [outLabels_append]
        simp [outLabels, segLine]
        rfl
      · rfl
  | glob g =>
    show outLabels (_ ++ itemLines _ _ _) = _
    rw [outLabels_append, outLabels_item]
    split
    · rw [emitAt_labels]
      rfl
    · rfl
  | «at» seg off =>
    show outLabels (emitAt s seg off).out = _
    rw [emitAt_labels]
    exact (List.append_nil _).symm
  | endAt =>
    show outLabels (s.out ++ [.stmt .endorg]) = _
    rw [outLabels_append]
    rfl

mutual

theorem emitEvent_labels : ∀ (e : Event) (s : EmitState),
    outLabels (emitEvent e s).out =
      outLabels s.out ++ ((eventEntries e).map (·.2)).filter Item.hasLabel
  | .item _ i, s => emitItem_labels i s
  | .use sub, s => by
    show outLabels ((emitEvents sub s).out ++ List.replicate _ (.stmt .endorg)) = _
    rw [outLabels_append, emitEvents_labels sub s, ← List.map_replicate, outLabels_stmts,
      List.append_nil]
    rfl

theorem emitEvents_labels : ∀ (events : List Event) (s : EmitState),
    outLabels (emitEvents events s).out =
      outLabels s.out ++ ((eventsEntries events).map (·.2)).filter Item.hasLabel
  | [], s => (List.append_nil _).symm
  | e :: rest, s => by
    show outLabels (emitEvents rest (emitEvent e s)).out = _
    rw [emitEvents_labels rest, emitEvent_labels e, List.append_assoc, ← List.filter_append,
      ← List.map_append]
    rfl

end

theorem placeItem_erase (i : Item) (s : PlaceState) : (placeItem i s).1.erase = i.erase := by
  cases i with
  | fn f => rfl
  | data d =>
    simp only [placeItem]
    split
    · rfl
    · split <;> rfl
  | glob g => rfl
  | «at» seg off => rfl
  | endAt => rfl

mutual

theorem placeEvent_entries : ∀ (e : Event) (s : PlaceState),
    (eventEntries (placeEvent e s).1).map (fun e => (e.1, e.2.erase)) =
      (eventEntries e).map (fun e => (e.1, e.2.erase))
  | .item module i, s => by
    show [(module, (placeItem i s).1.erase)] = [(module, i.erase)]
    rw [placeItem_erase]
  | .use sub, s => placeEvents_entries sub s

theorem placeEvents_entries : ∀ (events : List Event) (s : PlaceState),
    (eventsEntries (placeEvents events s).1).map (fun e => (e.1, e.2.erase)) =
      (eventsEntries events).map (fun e => (e.1, e.2.erase))
  | [], _ => rfl
  | e :: rest, s => by
    show (eventEntries (placeEvent e s).1 ++ eventsEntries (placeEvents rest _).1).map _ =
      (eventEntries e ++ eventsEntries rest).map _
    rw [List.map_append, List.map_append, placeEvent_entries e, placeEvents_entries rest]

end

/-- **Every reachable module is written once and in source order** where the names of modules are
right. -/
theorem expansion_complete {files : List NirFile} {root : NirFile} (hroot : root ∈ files)
    (hnames : NamesRight files root) : Complete files root := by
  refine ⟨expandRoot_finishes _ _, ?_, ?_⟩
  · intro events done h g hg
    obtain ⟨-, hdone⟩ := reaches_expanded hroot hnames h hg
    obtain ⟨⟨-, hitems⟩, -⟩ := expandModule_meets _ h
    rw [hitems, if_pos ⟨hdone, List.not_mem_nil⟩]
  · intro events done h r hr
    unfold bindModules at hr
    rw [h] at hr
    obtain rfl := Option.some.inj hr
    exact ⟨emitEvents_labels _ {}, placeEvents_entries events {}⟩

theorem noLines_plain : ∀ st ∈ ([] : List Asm.Statement), isPlain st = true := by
  simp

/-- An item of one line. -/
def noLines : ItemLines := { plain := noLines_plain }

/-- Two modules that use each other. -/
def cycleRoot : NirFile where
  path := ['m', '.', 'n', 'i', 'r']
  lines := [.use ['"', 'l', '.', 'n', 'i', 'f', '"'], .item (.glob { name := ['x'], body := noLines })]

def cycleOther : NirFile where
  path := ['l', '.', 'n', 'i', 'r']
  lines := [.item (.glob { name := ['y'], body := noLines }), .use ['"', 'm', '.', 'n', 'i', 'f', '"']]

/-- The modules are only expanded at the paths of their files. -/
theorem cycle_chain {path : Text} {above : List Text}
    (h : Chain (parseFiles [cycleOther, cycleRoot]) cycleRoot.path path above) :
    path = cycleRoot.path ∨ path = cycleOther.path := by
  induction h with
  | root => exact .inl rfl
  | step h hu hnew ih =>
    simp only [parseFiles, parseNir, cycleOther, cycleRoot, parseLine, List.flatMap_cons,
      List.flatMap_nil, List.map_cons, List.map_nil, List.append_nil, List.cons_append,
      List.nil_append, List.mem_cons, EmitOrder.mk.injEq, reduceCtorEq, and_false,
      OrderKind.use.injEq, List.not_mem_nil, or_false, false_or] at hu
    rcases ih with rfl | rfl <;> rcases hu with ⟨-, rfl⟩ | ⟨-, rfl⟩
    all_goals first | exact .inl (by decide) | exact .inr (by decide)

theorem expansion_complete_cycle : Complete [cycleOther, cycleRoot] cycleRoot := by
  refine expansion_complete (by simp) ?_
  intro path above hchain f hf hname text htext g hg hpath
  simp only [List.mem_cons, List.not_mem_nil, or_false] at hf hg
  rcases hf with rfl | rfl
  · obtain rfl : text = ['"', 'm', '.', 'n', 'i', 'f', '"'] := by
      simpa [cycleOther] using htext
    rcases cycle_chain hchain with rfl | rfl <;> rcases hg with rfl | rfl
    all_goals revert hname hpath; decide
  · obtain rfl : text = ['"', 'l', '.', 'n', 'i', 'f', '"'] := by
      simpa [cycleRoot] using htext
    rcases cycle_chain hchain with rfl | rfl <;> rcases hg with rfl | rfl
    all_goals revert hname hpath; decide

/-- The root stands in a directory and uses a file beside that directory: the name of the module is
cut at the first dot, so it is empty. -/
def parentRoot : NirFile where
  path := ['d', '/', 'm', '.', 'n', 'i', 'r']
  lines := [.use ['"', '.', '.', '/', 'l', '.', 'n', 'i', 'f', '"']]

def parentOther : NirFile where
  path := ['l', '.', 'n', 'i', 'r']
  lines := [.item (.glob { name := ['x'], body := noLines })]

theorem parentUse_dropped : Reaches [parentOther, parentRoot] parentRoot parentOther ∧
    ¬Complete [parentOther, parentRoot] parentRoot := by
  have hreach : Reaches [parentOther, parentRoot] parentRoot parentOther :=
    .step .root ⟨by simp, _, List.mem_cons_self .., by decide⟩
  refine ⟨hreach, fun h => ?_⟩
  obtain ⟨events, done, hexp⟩ := h.finishes
  have honce := h.once events done hexp parentOther hreach
  cases hexp
  have hlen := congrArg List.length honce
  revert hlen
  decide

end Nib.Bind
