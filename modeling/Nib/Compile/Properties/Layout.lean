import Nib.Compile.Spec.Layout
import Mathlib.Data.List.Nodup
import Mathlib.Data.List.Perm.Subperm

/-!
# Sizes and layouts of structures

* `structSizeRec_cycle` — on a cycle the recursion never ends
* `structSizeRec_isSome` — without one, it ends within as many structures as there are
* `typeSize_struct` — and `typeSize` is what it computes
* `terminates_iff` — when all sizes and layouts are computed
* `fieldPlace_le`, `fieldPlace_byte` — one field
* `typeSize_nonneg` — sizes are not negative
* `laidOut_inUnit_iff` — all fields
-/

namespace Nib.Compile

section Recursion

open Relation Compile

variable {structs : List StructSig} {size : Ty → Option Int}

/-! ## A type and its structure -/

/-- The size of a type is that of its structure, as far as the recursion goes. -/
theorem typeSizeRec_isNone {structSize : String → Option Int} : ∀ {t : Ty},
    typeSizeRec structSize t = none ↔ ∃ name, structIn t = some name ∧ structSize name = none
  | .array e n => by simp [typeSizeRec, structIn, typeSizeRec_isNone (t := e)]
  | .struct name => by simp [typeSizeRec, structIn]
  | .u8 | .u16 | .u32 | .seg | .bool | .bcd _ | .far | .void => by simp [typeSizeRec, structIn]

theorem fieldSizeRec_isNone {f : Field} : fieldSizeRec size f = none ↔
    f.isBits = false ∧ ∃ t, f.type = some t ∧ size t = none := by
  unfold fieldSizeRec
  cases f.isBits <;> cases f.type <;> simp

theorem fieldsEndRec_isNone {aligned : Bool} : ∀ (fs : List Field) {bitPos : Int},
    fieldsEndRec size aligned bitPos fs = none ↔ ∃ f ∈ fs, fieldSizeRec size f = none
  | [], _ => by simp [fieldsEndRec]
  | f :: fs, bitPos => by
    rw [fieldsEndRec, List.exists_mem_cons_iff]
    cases hf : fieldSizeRec size f with
    | none => simp
    | some n => simp [fieldsEndRec_isNone fs]

/-- The recursion needs one structure more than those that this one contains. -/
theorem structSizeRec_isNone {depth : Nat} {a : String} :
    structSizeRec structs (depth + 1) a = none ↔
      ∃ b, Contains structs a b ∧ structSizeRec structs depth b = none := by
  rw [structSizeRec]
  unfold Contains
  cases hs : structs.find? fun s => s.name == a with
  | none => simp
  | some s =>
    simp only [Option.map_eq_none_iff, fieldsEndRec_isNone, fieldSizeRec_isNone,
      typeSizeRec_isNone, Option.some.injEq, Option.bind_eq_some_iff]
    constructor
    · rintro ⟨f, hf, hbits, t, ht, b, hb, hnone⟩
      exact ⟨b, ⟨s, rfl, f, hf, hbits, t, ht, hb⟩, hnone⟩
    · rintro ⟨b, ⟨s, rfl, f, hf, hbits, t, ht, hb⟩, hnone⟩
      exact ⟨f, hf, hbits, t, ht, b, hb, hnone⟩

/-! ## A cycle -/

theorem structSizeRec_cycle : ∀ (depth : Nat) {a : String},
    TransGen (Contains structs) a a → structSizeRec structs depth a = none
  | 0, _, _ => rfl
  | depth + 1, a, h => by
    obtain ⟨b, hab, hba⟩ := TransGen.head'_iff.mp h
    have hb : TransGen (Contains structs) b b := TransGen.tail' hba hab
    exact structSizeRec_isNone.mpr ⟨b, hab, structSizeRec_cycle depth hb⟩

/-! ## Without a cycle -/

theorem find?_of_contains {a b : String} (h : Contains structs a b) :
    a ∈ structs.map StructSig.name := by
  obtain ⟨s, hs, -⟩ := h
  refine List.mem_map.mpr ⟨s, List.mem_of_find?_eq_some hs, ?_⟩
  simpa using List.find?_some hs

/-- A recursion that has not ended has opened structures that contain one another. -/
theorem exists_open : ∀ (depth : Nat) {a : String}, structSizeRec structs depth a = none →
    ∃ open' : List String, open'.length = depth ∧
      open'.Pairwise (TransGen (Contains structs)) ∧
      (∀ x ∈ open', x ∈ structs.map StructSig.name) ∧
      ∀ x ∈ open', x = a ∨ TransGen (Contains structs) a x
  | 0, _, _ => ⟨[], rfl, .nil, nofun, nofun⟩
  | depth + 1, a, h => by
    obtain ⟨b, hab, hb⟩ := structSizeRec_isNone.mp h
    obtain ⟨rest, hlen, hpair, hmem, hfrom⟩ := exists_open depth hb
    have hreach : ∀ x ∈ rest, TransGen (Contains structs) a x := fun x hx => by
      obtain rfl | hbx := hfrom x hx
      · exact .single hab
      · exact .head hab hbx
    refine ⟨a :: rest, by rw [List.length_cons, hlen], .cons hreach hpair, ?_, ?_⟩
    · intro x hx
      obtain rfl | hx := List.mem_cons.mp hx
      · exact find?_of_contains hab
      · exact hmem x hx
    · intro x hx
      obtain rfl | hx := List.mem_cons.mp hx
      · exact .inl rfl
      · exact .inr (hreach x hx)

/-- **Without a cycle the recursion ends** before more structures are open than there are. -/
theorem structSizeRec_isSome (h : NoCycle structs) (name : String) :
    (structSizeRec structs (structs.length + 1) name).isSome = true := by
  by_contra hnone
  rw [Option.not_isSome_iff_eq_none] at hnone
  obtain ⟨names, hlen, hpair, hmem, -⟩ := exists_open _ hnone
  have hnodup : names.Nodup := by
    refine hpair.imp fun hab => ?_
    rintro rfl
    exact h _ hab
  have hle := (hnodup.subperm hmem).length_le
  rw [hlen, List.length_map] at hle
  omega

theorem typeSizeRec_isSome {structSize : String → Option Int}
    (h : ∀ name, (structSize name).isSome = true) (t : Ty) :
    (typeSizeRec structSize t).isSome = true := by
  by_contra hnone
  rw [Option.not_isSome_iff_eq_none, typeSizeRec_isNone] at hnone
  obtain ⟨name, -, hname⟩ := hnone
  have := h name
  rw [hname] at this
  cases this

theorem findFieldRec_isSome {aligned rawAccess : Bool} {fieldName : String}
    (h : ∀ t, (size t).isSome = true) : ∀ (fs : List Field) (bitPos : Int),
    (findFieldRec size aligned fieldName rawAccess bitPos fs).isSome = true
  | [], _ => rfl
  | f :: fs, bitPos => by
    have hf : (fieldSizeRec size f).isSome = true := by
      by_contra hnone
      rw [Option.not_isSome_iff_eq_none, fieldSizeRec_isNone] at hnone
      obtain ⟨-, t, -, ht⟩ := hnone
      have := h t
      rw [ht] at this
      cases this
    obtain ⟨n, hn⟩ := Option.isSome_iff_exists.mp hf
    rw [findFieldRec, hn, Option.bind_some]
    simp only
    split
    · rfl
    · exact findFieldRec_isSome h fs _

theorem terminates_of_noCycle (h : NoCycle structs) : Terminates structs := by
  have htype := typeSizeRec_isSome (structSizeRec_isSome h)
  refine ⟨fun t => ⟨_, htype t⟩, fun structType fieldName rawAccess => ⟨structs.length + 1, ?_⟩⟩
  unfold layoutRec
  split
  · split
    · rfl
    · exact findFieldRec_isSome htype _ _
  · rfl

theorem terminates_iff_noCycle : Terminates structs ↔ NoCycle structs := by
  refine ⟨fun h a hcycle => ?_, terminates_of_noCycle⟩
  obtain ⟨depth, hdepth⟩ := h.1 (.struct a)
  have hnone : typeSizeRec (structSizeRec structs depth) (.struct a) = none :=
    structSizeRec_cycle depth hcycle
  rw [hnone] at hdepth
  cases hdepth

/-! ## The depth is enough -/

variable {structSize : String → Option Int} {structSize' : String → Int} {size' : Ty → Int}

theorem typeSizeRec_sound (h : ∀ x n, structSize x = some n → structSize' x = n) :
    ∀ {t : Ty} {n : Int}, typeSizeRec structSize t = some n → typeSizeWith structSize' t = n
  | .array e m, n, hn => by
    obtain ⟨k, hk, rfl⟩ := Option.map_eq_some_iff.mp hn
    rw [typeSizeWith, typeSizeRec_sound h hk]
  | .struct name, _, hn => h name _ hn
  | .u8, _, hn | .u16, _, hn | .u32, _, hn | .seg, _, hn | .bool, _, hn | .bcd _, _, hn
  | .far, _, hn | .void, _, hn => Option.some.inj hn

theorem fieldPlace_sound (h : ∀ t n, size t = some n → size' t = n) {aligned : Bool}
    {bitPos n : Int} {f : Field} (hf : fieldSizeRec size f = some n) :
    fieldPlace (fun _ => n) aligned bitPos f = fieldPlace size' aligned bitPos f := by
  unfold fieldPlace
  unfold fieldSizeRec at hf
  split_ifs at hf ⊢
  · rfl
  · cases ht : f.type with
    | none => rfl
    | some t =>
      rw [ht] at hf
      simp [h t n hf]

theorem fieldsEndRec_sound (h : ∀ t n, size t = some n → size' t = n) {aligned : Bool} :
    ∀ {fs : List Field} {bitPos e : Int}, fieldsEndRec size aligned bitPos fs = some e →
    fs.foldl (fun bitPos f => (fieldPlace size' aligned bitPos f).2) bitPos = e
  | [], _, _, he => Option.some.inj he
  | f :: fs, bitPos, e, he => by
    obtain ⟨n, hn, hrest⟩ := Option.bind_eq_some_iff.mp he
    rw [fieldPlace_sound h hn] at hrest
    have hfold := fieldsEndRec_sound h hrest
    exact hfold

theorem structSizeRec_sound : ∀ {depth depth' : Nat} {x : String} {n : Int}, depth ≤ depth' →
    structSizeRec structs depth x = some n → structSizeIn structs depth' x = n
  | 0, _, _, _, _, h => nomatch h
  | depth + 1, 0, _, _, hle, _ => absurd hle (Nat.not_succ_le_zero _)
  | depth + 1, depth' + 1, x, n, hle, h => by
    rw [structSizeRec] at h
    rw [structSizeIn]
    cases hs : structs.find? fun s => s.name == x with
    | none =>
      rw [hs] at h
      exact Option.some.inj h
    | some s =>
      rw [hs] at h
      obtain ⟨e, he, rfl⟩ := Option.map_eq_some_iff.mp h
      have hsound : ∀ t n, typeSizeRec (structSizeRec structs depth) t = some n →
          typeSizeWith (structSizeIn structs depth') t = n := fun t n =>
        typeSizeRec_sound fun y m => structSizeRec_sound (Nat.le_of_succ_le_succ hle)
      simp only [fieldsEndRec_sound hsound he]

/-- **The size of a structure is that of its fields**: the depth to which `typeSize` looks is
enough. -/
theorem typeSize_struct {c : Compiler} (h : NoCycle c.structs) {name : String} {s : StructSig}
    (hs : findStruct c name = some s) : typeSize c (.struct name) =
      alignBits (s.fields.foldl (fun bitPos f => (fieldPlace (typeSize c) s.aligned bitPos f).2) 0)
        / 8 := by
  obtain ⟨n, hn⟩ := Option.isSome_iff_exists.mp (structSizeRec_isSome h name)
  have hsize : typeSize c (.struct name) = n := structSizeRec_sound (Nat.le_refl _) hn
  have hnext := structSizeRec_sound (Nat.le_succ _) hn
  rw [structSizeIn, show (c.structs.find? fun s => s.name == name) = some s from hs] at hnext
  rw [hsize, ← hnext]
  rfl

/-! ## Declarations -/

@[simp] theorem compileStructs_structs : ∀ (ds : List StructSig) (c : Compiler),
    (compileStructs ds c).state.structs =
      c.structs ++ ds.map fun d => { d with name := symName d.name }
  | [], c => by
    rw [List.map_nil, List.append_nil]
    rfl
  | d :: ds, c => by
    have hstep : (compileStructs (d :: ds) c).state =
      (compileStructs ds (compileStruct d c).state).state := rfl
    rw [hstep, compileStructs_structs ds, List.map_cons]
    show (c.structs ++ [_]) ++ _ = _
    rw [List.append_assoc, List.singleton_append]

/-- **Sizes and layouts are computed exactly when no structure contains itself**, where a name
stands for its first declaration. -/
theorem terminates_iff (c : Compiler) (ds : List StructSig) :
    Terminates (compileStructs ds c).state.structs ↔
      NoCycle (c.structs ++ ds.map fun d => { d with name := symName d.name }) := by
  rw [compileStructs_structs]
  exact terminates_iff_noCycle

/-- A structure with a field of its own type is declared without an error, and its size is never
computed. -/
theorem terminates_self :
    let next : Field := ⟨some "next", some (.struct "Node"), 0, false, none⟩
    let c := (compileStructs [⟨"Node", [next], false⟩] {}).state
    c.errors = [] ∧ (∀ depth, typeSizeRec (structSizeRec c.structs depth) (.struct "Node") = none) ∧
      ¬Terminates c.structs := by
  have hself : Contains [⟨"Node", [⟨some "next", some (.struct "Node"), 0, false, none⟩], false⟩]
      "Node" "Node" := ⟨_, rfl, _, List.mem_cons_self, rfl, rfl⟩
  refine ⟨rfl, fun depth => structSizeRec_cycle depth (.single hself), fun h => ?_⟩
  exact terminates_iff_noCycle.mp h "Node" (.single hself)

end Recursion

section Fields

open Compile

variable {size : Ty → Int} {aligned : Bool} {f : Field} {bitPos run : Int} {fs : List Field}
  {c : Compiler} {p : PlacedField}

/-! ## One field -/

theorem alignBits_spec (n : Int) : n ≤ alignBits n ∧ alignBits n % 8 = 0 ∧
    ∀ m, n ≤ 8 * m → alignBits n / 8 ≤ m := by
  unfold alignBits
  refine ⟨?_, ?_, fun m hm => ?_⟩ <;> omega

/-- The width of a field in bits. -/
def widthOf (size : Ty → Int) (f : Field) : Int :=
  if f.isBits then f.bits else 8 * (f.type.map size).getD 0

theorem fieldPlace_width : (fieldPlace size aligned bitPos f).2 =
    (fieldPlace size aligned bitPos f).1 + widthOf size f := by
  unfold fieldPlace widthOf
  split_ifs
  · rfl
  · simp only
    omega

/-- A field does not begin before the position that is reached. -/
theorem fieldPlace_le : bitPos ≤ (fieldPlace size aligned bitPos f).1 := by
  have halign := alignBits_spec bitPos
  unfold fieldPlace
  split_ifs
  · exact Int.le_refl _
  · simp only
    split_ifs <;> omega

theorem fieldPlace_byte (hf : f.isBits = false) : (fieldPlace size aligned bitPos f).1 % 8 = 0 ∧
    (aligned = true → typeNeedsWordAlignment f.type = true →
      (fieldPlace size aligned bitPos f).1 % 16 = 0) := by
  unfold fieldPlace
  rw [hf, if_neg Bool.false_ne_true]
  simp only
  refine ⟨by omega, ?_⟩
  rintro rfl hword
  rw [hword]
  split_ifs with hodd
  · simp only [Bool.and_self, Bool.true_and, beq_iff_eq] at hodd
    omega
  · simp only [Bool.and_self, Bool.true_and, beq_iff_eq] at hodd
    omega

theorem fieldPlace_bits (hf : f.isBits = true) :
    fieldPlace size aligned bitPos f = (bitPos, bitPos + f.bits) := by
  rw [fieldPlace, hf, if_pos rfl]

/-- The position after a field, in its byte. -/
theorem fieldPlace_run (hrun : bitPos % 8 = run % 8) : (fieldPlace size aligned bitPos f).2 % 8 =
    (if f.isBits then run + f.bits else 0) % 8 := by
  cases hf : f.isBits with
  | true =>
    rw [fieldPlace_bits hf, if_pos rfl]
    simp only
    omega
  | false =>
    have hbyte : (fieldPlace size aligned bitPos f).1 % 8 = 0 := (fieldPlace_byte hf).1
    rw [fieldPlace_width, widthOf, hf, if_neg Bool.false_ne_true, if_neg Bool.false_ne_true]
    omega

/-! ## All fields -/

/-- The position after all fields. -/
def fieldsEnd (size : Ty → Int) (aligned : Bool) (bitPos : Int) (fs : List Field) : Int :=
  fs.foldl (fun bitPos f => (fieldPlace size aligned bitPos f).2) bitPos

theorem placeFields_fields : ∀ (fs : List Field) (run bitPos : Int),
    (placeFields size aligned run bitPos fs).map PlacedField.field = fs
  | [], _, _ => rfl
  | f :: fs, _, _ => congrArg (f :: ·) (placeFields_fields fs _ _)

theorem fieldPlace_next (hf : 0 ≤ widthOf size f) :
    bitPos ≤ (fieldPlace size aligned bitPos f).2 := by
  have hle : bitPos ≤ (fieldPlace size aligned bitPos f).1 := fieldPlace_le
  rw [fieldPlace_width]
  omega

theorem le_fieldsEnd : ∀ {fs : List Field} {bitPos : Int}, (∀ f ∈ fs, 0 ≤ widthOf size f) →
    bitPos ≤ fieldsEnd size aligned bitPos fs
  | [], _, _ => Int.le_refl _
  | f :: _, _, h => Int.le_trans (fieldPlace_next (h f List.mem_cons_self))
    (le_fieldsEnd fun g hg => h g (List.mem_cons_of_mem _ hg))

/-- Where a field of the list was placed from. -/
structure PlacedFrom (size : Ty → Int) (aligned : Bool) (bitPos last from' : Int)
    (p : PlacedField) : Prop where
  from_le : bitPos ≤ from'
  run : from' % 8 = p.run % 8
  start : p.start = (fieldPlace size aligned from' p.field).1
  stop : p.stop = (fieldPlace size aligned from' p.field).2
  stop_le : p.stop ≤ last

theorem mem_placeFields : ∀ {fs : List Field} {run bitPos : Int},
    (∀ f ∈ fs, 0 ≤ widthOf size f) → bitPos % 8 = run % 8 →
    ∀ p ∈ placeFields size aligned run bitPos fs, p.field ∈ fs ∧
      ∃ from', PlacedFrom size aligned bitPos (fieldsEnd size aligned bitPos fs) from' p
  | [], _, _, _, _, _, hp => nomatch hp
  | f :: fs, run, bitPos, h, hrun, p, hp => by
    have hrest : ∀ g ∈ fs, 0 ≤ widthOf size g := fun g hg => h g (List.mem_cons_of_mem _ hg)
    have hnext : bitPos ≤ (fieldPlace size aligned bitPos f).2 :=
      fieldPlace_next (h f List.mem_cons_self)
    obtain rfl | hp := List.mem_cons.mp hp
    · exact ⟨List.mem_cons_self, bitPos, Int.le_refl _, hrun, rfl, rfl, le_fieldsEnd hrest⟩
    · obtain ⟨hmem, from', hfrom⟩ := mem_placeFields hrest (fieldPlace_run hrun) p hp
      exact ⟨List.mem_cons_of_mem _ hmem, from', Int.le_trans hnext hfrom.from_le, hfrom.run,
        hfrom.start, hfrom.stop, hfrom.stop_le⟩

theorem pairwise_placeFields : ∀ {fs : List Field} {run bitPos : Int},
    (∀ f ∈ fs, 0 ≤ widthOf size f) → bitPos % 8 = run % 8 →
    (placeFields size aligned run bitPos fs).Pairwise fun p q => p.stop ≤ q.start
  | [], _, _, _, _ => .nil
  | f :: fs, run, bitPos, h, hrun => by
    have hrest : ∀ g ∈ fs, 0 ≤ widthOf size g := fun g hg => h g (List.mem_cons_of_mem _ hg)
    refine .cons (fun q hq => ?_) (pairwise_placeFields hrest (fieldPlace_run hrun))
    obtain ⟨-, from', hfrom⟩ := mem_placeFields hrest (fieldPlace_run hrun) q hq
    rw [hfrom.start]
    exact Int.le_trans hfrom.from_le fieldPlace_le

theorem exists_last : ∀ {fs : List Field} {run bitPos : Int}, fs ≠ [] →
    ∃ p ∈ placeFields size aligned run bitPos fs, p.stop = fieldsEnd size aligned bitPos fs
  | [f], _, _, _ => ⟨_, List.mem_cons_self, rfl⟩
  | f :: g :: fs, run, bitPos, _ => by
    let run' := if f.isBits then run + f.bits else 0
    let next := (fieldPlace size aligned bitPos f).2
    have hrest : ∃ p ∈ placeFields size aligned run' next (g :: fs),
        p.stop = fieldsEnd size aligned next (g :: fs) := exists_last (List.cons_ne_nil g fs)
    obtain ⟨p, hp, hstop⟩ := hrest
    exact ⟨p, List.mem_cons_of_mem _ hp, hstop⟩

/-- The layout that is found is that of the first field of the name. -/
theorem findField_eq (fieldName : String) (rawAccess : Bool) : ∀ (fs : List Field)
    (run bitPos : Int), findField size aligned fieldName rawAccess bitPos fs =
      ((placeFields size aligned run bitPos fs).find? fun p => p.field.name == some fieldName).map
        fun p => fieldLayoutOf p.field p.start rawAccess
  | [], _, _ => rfl
  | f :: fs, run, bitPos => by
    rw [findField, placeFields, List.find?_cons]
    simp only
    by_cases hname : f.name = some fieldName
    · rw [if_pos hname, beq_iff_eq.mpr hname]
      rfl
    · rw [if_neg hname, beq_eq_false_iff_ne.mpr hname]
      exact findField_eq fieldName rawAccess fs _ _

/-! ## Sizes -/

theorem typeSizeWith_nonneg {structSize : String → Int} (h : ∀ name, 0 ≤ structSize name) :
    ∀ {t : Ty}, Counted t → 0 ≤ typeSizeWith structSize t
  | .array _ _, ht => Int.mul_nonneg (typeSizeWith_nonneg h ht.2) ht.1
  | .bcd _, ht => ht
  | .struct name, _ => h name
  | .u8, _ | .u16, _ | .u32, _ | .seg, _ | .bool, _ | .far, _ | .void, _ => by
    simp [typeSizeWith]

theorem widthOf_nonneg {s : StructSig} (hs : Declared s) (h : ∀ t, Counted t → 0 ≤ size t) :
    ∀ f ∈ s.fields, 0 ≤ widthOf size f := by
  intro f hf
  obtain ⟨hbits, htype⟩ := hs f hf
  unfold widthOf
  split_ifs with hb
  · exact hbits hb
  · cases ht : f.type with
    | none => exact Int.le_refl 0
    | some t =>
      have := h t (htype t ht)
      simp only [Option.map_some, Option.getD_some]
      omega

theorem structSizeIn_nonneg {structs : List StructSig} (h : ∀ s ∈ structs, Declared s) :
    ∀ (depth : Nat) (name : String), 0 ≤ structSizeIn structs depth name
  | 0, _ => Int.le_refl _
  | depth + 1, name => by
    rw [structSizeIn]
    cases hs : structs.find? fun s => s.name == name with
    | none => exact Int.le_refl _
    | some s =>
      have hwidth := widthOf_nonneg (h s (List.mem_of_find?_eq_some hs)) fun t =>
        typeSizeWith_nonneg (structSizeIn_nonneg h depth)
      have hend : 0 ≤ fieldsEnd (typeSizeWith (structSizeIn structs depth)) s.aligned 0 s.fields :=
        le_fieldsEnd hwidth
      have halign := alignBits_spec
        (fieldsEnd (typeSizeWith (structSizeIn structs depth)) s.aligned 0 s.fields)
      show 0 ≤ alignBits (fieldsEnd _ s.aligned 0 s.fields) / 8
      omega

theorem typeSize_nonneg (h : ∀ s ∈ c.structs, Declared s) {t : Ty} (ht : Counted t) :
    0 ≤ typeSize c t :=
  typeSizeWith_nonneg (structSizeIn_nonneg h _) ht

theorem widthOf_typeSize (f : Field) : widthOf (typeSize c) f =
    if f.isBits then f.bits else 8 * typeSizeOpt c f.type := by
  unfold widthOf typeSizeOpt
  cases f.type <;> rfl

/-! ## A structure -/

section Struct

variable {name : String} {s : StructSig} (hacyclic : NoCycle c.structs)
  (hdecl : ∀ s ∈ c.structs, Declared s) (hs : findStruct c name = some s)

include hdecl hs

theorem declared_width : ∀ f ∈ s.fields, 0 ≤ widthOf (typeSize c) f :=
  widthOf_nonneg (hdecl s (List.mem_of_find?_eq_some hs)) fun _ => typeSize_nonneg hdecl

theorem mem_placed (hp : p ∈ placed c s) : p.field ∈ s.fields ∧ ∃ from',
    PlacedFrom (typeSize c) s.aligned 0 (fieldsEnd (typeSize c) s.aligned 0 s.fields) from' p :=
  mem_placeFields (declared_width hdecl hs) rfl p hp

/-- **Where a bit field lies in its unit**: the bit fields before it, since the last field that is
none, leave room in the byte or word. -/
theorem inUnit_iff (hp : p ∈ placed c s) (hbits : p.field.isBits = true) :
    InUnit c p ↔ p.run % 8 + p.field.bits ≤ if p.field.bits ≤ 8 then 8 else 16 := by
  obtain ⟨-, from', hfrom⟩ := mem_placed hdecl hs hp
  have hrun := hfrom.run
  have hplace := hfrom.start
  have hstop := hfrom.stop
  rw [fieldPlace_bits hbits] at hplace hstop
  have hunit : unitBits c (fieldLayoutOf p.field p.start false) =
      if p.field.bits ≤ 8 then 8 else 16 := by
    unfold unitBits fieldLayoutOf
    rw [hbits, if_pos rfl]
    simp only
    split_ifs <;> rfl
  have hoffset : (fieldLayoutOf p.field p.start false).byteOffset = p.start / 8 := by
    rw [fieldLayoutOf, hbits, if_pos rfl]
  unfold InUnit
  simp only [hunit, hoffset]
  split_ifs <;> omega

include hacyclic

theorem laidOut : LaidOut c name s := by
  have hwidth := declared_width hdecl hs
  have hsize : typeSize c (.struct name) =
    alignBits (fieldsEnd (typeSize c) s.aligned 0 s.fields) / 8 := typeSize_struct hacyclic hs
  obtain ⟨hle, hbyte, hleast⟩ := alignBits_spec (fieldsEnd (typeSize c) s.aligned 0 s.fields)
  constructor
  · intro p hp
    obtain ⟨-, from', hfrom⟩ := mem_placed hdecl hs hp
    rw [hfrom.start, hfrom.stop, fieldPlace_width, widthOf_typeSize]
    omega
  · exact placeFields_fields _ _ _
  · exact pairwise_placeFields hwidth rfl
  · intro p hp
    obtain ⟨hmem, from', hfrom⟩ := mem_placed hdecl hs hp
    have hfit := hfrom.stop_le
    have hpos := hfrom.from_le
    have hstart : from' ≤ p.start := hfrom.start ▸ fieldPlace_le
    have hstop : p.stop = p.start + widthOf (typeSize c) p.field := by
      rw [hfrom.start, hfrom.stop, fieldPlace_width]
    have := hwidth _ hmem
    rw [hsize]
    omega
  · intro p hp hbits
    obtain ⟨-, from', hfrom⟩ := mem_placed hdecl hs hp
    rw [hfrom.start]
    exact fieldPlace_byte hbits
  · intro n hn hcover
    rw [hsize]
    refine hleast n ?_
    cases hf : s.fields with
    | nil =>
      show (0 : Int) ≤ 8 * n
      omega
    | cons f fs =>
      have hne : s.fields ≠ [] := by simp [hf]
      obtain ⟨p, hp, hstop⟩ : ∃ p ∈ placed c s,
          p.stop = fieldsEnd (typeSize c) s.aligned 0 s.fields := exists_last hne
      rw [← hf, ← hstop]
      exact hcover p hp
  · intro fieldName rawAccess
    rw [placed, ← findField_eq]
    simp only [structFieldLayout, getState, bind, hs]
    cases findField (typeSize c) s.aligned fieldName rawAccess 0 s.fields <;> rfl

/-- **The fields of a structure lie in order in ranges that do not meet**, and the size is the
smallest that covers them; a bit field lies in its unit exactly when the bit fields before it leave
room there. -/
theorem laidOut_inUnit_iff : LaidOut c name s ∧ ∀ p ∈ placed c s, p.field.isBits = true →
    (InUnit c p ↔ p.run % 8 + p.field.bits ≤ if p.field.bits ≤ 8 then 8 else 16) :=
  ⟨laidOut hacyclic hdecl hs, fun _ hp hbits => inUnit_iff hdecl hs hp hbits⟩

end Struct

/-- Six bits and four. -/
theorem declared_pair :
    Declared ⟨"Pair", [⟨some "a", none, 6, true, none⟩, ⟨some "b", none, 4, true, none⟩], false⟩ := by
  intro f hf
  obtain rfl | hf := List.mem_cons.mp hf
  · exact ⟨fun _ => by decide, nofun⟩
  · rw [List.mem_singleton.mp hf]
    exact ⟨fun _ => by decide, nofun⟩

/-- The second field is read as a byte, in which only two of its bits lie. -/
theorem straddles_not_inUnit :
    let a : Field := ⟨some "a", none, 6, true, none⟩
    let b : Field := ⟨some "b", none, 4, true, none⟩
    let s : StructSig := ⟨"Pair", [a, b], false⟩
    let c : Compiler := { structs := [s] }
    Declared s ∧ (structFieldLayout (some (.struct "Pair")) "b" false c).value =
        some ⟨true, 0, some .u8, some .u8⟩ ∧
      ¬∀ p ∈ placed c s, p.field.isBits = true → InUnit c p := by
  intro a b s c
  refine ⟨declared_pair, rfl, fun h => ?_⟩
  have hb := h ⟨b, 6, 10, 6⟩ (List.mem_cons_of_mem _ List.mem_cons_self) rfl
  exact absurd hb.2 (by decide)

/-- The same structure. -/
theorem laidOut_inUnit_iff_pair :
    let a : Field := ⟨some "a", none, 6, true, none⟩
    let b : Field := ⟨some "b", none, 4, true, none⟩
    let s : StructSig := ⟨"Pair", [a, b], false⟩
    let c : Compiler := { structs := [s] }
    LaidOut c "Pair" s ∧ ∀ p ∈ placed c s, p.field.isBits = true →
      (InUnit c p ↔ p.run % 8 + p.field.bits ≤ if p.field.bits ≤ 8 then 8 else 16) := by
  intro a b s c
  refine laidOut_inUnit_iff ?_ ?_ rfl
  · -- bit fields contain no structure
    intro x hx
    obtain ⟨y, ⟨s', hs', f, hf, hbits, -⟩, -⟩ := Relation.TransGen.head'_iff.mp hx
    obtain rfl : s' = s := List.mem_singleton.mp (List.mem_of_find?_eq_some hs')
    obtain rfl | hf := List.mem_cons.mp hf
    · cases hbits
    · rw [List.mem_singleton.mp hf] at hbits
      cases hbits
  · intro s' hs'
    rw [List.mem_singleton.mp hs']
    exact declared_pair

end Fields

end Nib.Compile
