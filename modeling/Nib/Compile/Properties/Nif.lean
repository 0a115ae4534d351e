import Nib.Bind.Properties.Globals
import Nib.Compile.Spec.Interface

/-!
# Interface files

* `nifReadWord_stop` — a word is read up to the character that ends it
* `typeWord_of_reads` — a type that is read back
* `adds_fn`, `adds_descriptor`, `adds_struct` — the blocks of a declaration
* `import_tables` — an import reads the tables that were written
* `import_types` — the types that an import can have, whatever the file says
-/

namespace Nib.Compile

open Infra Asm Nib.Bind NifState

/-! ## Words -/

theorem nifEndsWord_of_endsWord {c : Char} (h : endsWord c = false) (hc : c ≠ ':') :
    nifEndsWord c = false := by
  simp only [endsWord, Bool.or_eq_false_iff] at h
  simp only [nifEndsWord, h.1.1.1, h.1.1.2, h.1.2, beq_eq_false_iff_ne.mpr hc, Bool.or_false]

theorem nifEndsWord_of_name {name : Text} (h : IsName name) :
    ∀ c ∈ name, nifEndsWord c = false := by
  intro c hc
  refine nifEndsWord_of_endsWord (isName_endsWord h c hc) fun he => ?_
  rcases h.chars c hc with hc | hc
  · exact absurd (he ▸ hc) (by decide)
  · exact absurd (he.symm.trans hc) (by decide)

theorem nifEndsWord_of_mem_printDec {n : Int} {c : Char} (h : c ∈ printDec n) :
    nifEndsWord c = false := by
  refine nifEndsWord_of_endsWord (endsWord_of_mem_printDec h) fun he => ?_
  rcases printDec_char h with hc | hc
  · exact absurd (he.symm.trans hc) (by decide)
  · exact absurd (he ▸ hc) (by decide)

theorem isSpace_of_nifEndsWord {c : Char} (h : nifEndsWord c = false) : isSpace c = false := by
  simp only [nifEndsWord, Bool.or_eq_false_iff] at h
  exact h.1.1.1

/-- A word that the buffer holds is read up to the character that ends it. -/
theorem nifReadWord_stop {size : Nat} {a y : Text} (hne : a ≠ [])
    (ha : ∀ c ∈ a, nifEndsWord c = false) (hlen : a.length < size)
    (hy : ∀ c, y.head? = some c → nifEndsWord c = true) : nifReadWord size (a ++ y) = (a, y) := by
  have hskip : skipWs (a ++ y) = a ++ y := by
    obtain ⟨d, b, rfl⟩ := List.exists_cons_of_ne_nil hne
    refine skipWs_of_head fun c hc => ?_
    cases hc
    exact isSpace_of_nifEndsWord (ha d List.mem_cons_self)
  have hword : ((a ++ y).take (size - 1)).takeWhile (fun c => !nifEndsWord c) = a := by
    rw [takeWhile_take _ _ y (fun c hc => by rw [ha c hc]; rfl) (fun c hc => by rw [hy c hc]; rfl)]
    exact List.take_of_length_le (by omega)
  simp only [nifReadWord, hskip, hword, List.drop_left]

/-- Blanks before a word are skipped. -/
theorem nifReadWord_blank {size : Nat} (y : Text) :
    nifReadWord size (' ' :: y) = nifReadWord size y := rfl

theorem atoi_printDec_append {n : Int} (h : InInt n) {y : Text}
    (hy : ∀ c, y.head? = some c → c.isDigit = false) : atoi (printDec n ++ y) = n := by
  obtain ⟨hlow, hhigh⟩ := h
  simp only [atoi, strtol_printDec n y hy, clampLong, Asm.toInt32]
  omega

theorem length_printDec {n : Int} (h : InInt n) : (printDec n).length ≤ 11 := by
  obtain ⟨hlow, hhigh⟩ := h
  have hdigits : (Nat.toDigits 10 n.natAbs).length ≤ 10 :=
    (Nat.length_toDigits_le_iff (by decide) (by decide)).mpr (by omega)
  unfold printDec
  split
  · rw [List.length_cons]
    omega
  · omega

/-- A name that the tables hold. -/
theorem symName_short {name : String} (h : name.toList.length < 64) : symName name = name := by
  rw [symName, List.take_of_length_le (by omega), String.ofList_toList]

/-! ## Types -/

/-- A word from which a type is read, through a buffer. -/
structure TypeWord (size : Nat) (w : Text) (t : Ty) : Prop where
  ne_nil : w ≠ []
  chars : ∀ c ∈ w, nifEndsWord c = false
  length : w.length < size
  parses : nifParseType w = t
  notBits : w.take 5 ≠ bitsWord

theorem TypeWord.read {size : Nat} {w : Text} {t : Ty} (h : TypeWord size w t) {y : Text}
    (hy : ∀ c, y.head? = some c → nifEndsWord c = true) : nifReadWord size (w ++ y) = (w, y) :=
  nifReadWord_stop h.ne_nil h.chars h.length hy

theorem notBits_of_notMem {w : Text} (h : '(' ∉ w) : w.take 5 ≠ bitsWord := by
  intro he
  have hm : '(' ∈ w.take 5 := by rw [he]; decide
  exact h (List.mem_of_mem_take hm)

theorem typeWord_name {size : Nat} {name : Text} {t : Ty} (h : IsName name)
    (hlen : name.length < size) (hp : nifParseType name = t) : TypeWord size name t where
  ne_nil := isName_ne_nil h
  chars := nifEndsWord_of_name h
  length := hlen
  parses := hp
  notBits := by
    refine notBits_of_notMem fun hc => ?_
    rcases h.chars _ hc with hc | hc
    · exact absurd hc (by decide)
    · cases hc

/-- The text of an array fits the buffer of `type_str`. -/
theorem typeText_array {e : Ty} {n : Int} (hn : InInt n) (he : (typeText e).length ≤ 5) :
    typeText (.array e n) = typeText e ++ ('[' :: printDec n ++ [']']) := by
  have hlen := length_printDec hn
  rw [typeText, List.append_assoc, List.take_of_length_le]
  simp only [List.length_append, List.length_cons, List.length_nil]
  omega

theorem typeWord_array {size : Nat} (hsize : 32 ≤ size) {e : Ty} {n : Int} (hn : InInt n)
    (he : (typeText e).length ≤ 5) (hname : IsName (typeText e))
    (hp : ∀ y, nifParseType (typeText e ++ '[' :: y) = .array e (atoi y)) :
    TypeWord size (typeText (.array e n)) (.array e n) := by
  rw [typeText_array hn he]
  have hlen := length_printDec hn
  refine ⟨List.append_ne_nil_of_left_ne_nil (isName_ne_nil hname) _, ?_, ?_, ?_, ?_⟩
  · intro c hc
    rcases List.mem_append.mp hc with hc | hc
    · exact nifEndsWord_of_name hname c hc
    · rcases List.mem_cons.mp hc with rfl | hc
      · decide
      · rcases List.mem_append.mp hc with hc | hc
        · exact nifEndsWord_of_mem_printDec hc
        · rw [List.mem_singleton.mp hc]
          decide
  · simp only [List.length_append, List.length_cons, List.length_nil]
    omega
  · rw [List.cons_append, hp, atoi_printDec_append hn (by
      intro c hc
      cases hc
      decide)]
  · refine notBits_of_notMem fun hc => ?_
    rcases List.mem_append.mp hc with hc | hc
    · exact absurd (nifEndsWord_of_name hname _ hc) (by
        rcases hname.chars _ hc with hc | hc
        · exact absurd hc (by decide)
        · cases hc)
    · rcases List.mem_cons.mp hc with hc | hc
      · cases hc
      · rcases List.mem_append.mp hc with hc | hc
        · rcases printDec_char hc with hc | hc
          · cases hc
          · exact absurd hc (by decide)
        · cases List.mem_singleton.mp hc

/-- A name is a structure unless it is one of the words. -/
theorem nifParseType_name {name : String} (h : IsName name.toList) (hw : name ∉ typeWords) :
    nifParseType name.toList = .struct name := by
  have hne : ∀ (w : String) (l : Text), w ∈ typeWords → w.toList = l → name.toList ≠ l :=
    fun w l hm hl he => hw (String.toList_inj.mp (he.trans hl.symm) ▸ hm)
  have hb : ∀ (k : Nat) (w : Text), '[' ∈ w → name.toList.take k ≠ w := fun k w hm he =>
    isName_bracket h (List.mem_of_mem_take (he ▸ hm))
  unfold nifParseType
  rw [if_neg (hne "u8" ['u', '8'] (by decide) rfl),
    if_neg (hne "u16" ['u', '1', '6'] (by decide) rfl),
    if_neg (hne "u32" ['u', '3', '2'] (by decide) rfl),
    if_neg (hne "seg" ['s', 'e', 'g'] (by decide) rfl),
    if_neg (hne "bool" ['b', 'o', 'o', 'l'] (by decide) rfl),
    if_neg (not_or.mpr ⟨hne "far" ['f', 'a', 'r'] (by decide) rfl,
      hne "far32" ['f', 'a', 'r', '3', '2'] (by decide) rfl⟩),
    if_neg (hb 3 _ (by decide)), if_neg (hb 4 _ (by decide)), if_neg (hb 4 _ (by decide)),
    if_neg (hb 4 _ (by decide)), if_neg (hb 6 _ (by decide)), String.ofList_toList]

/-- **A type that is read back.** -/
theorem typeWord_of_reads {size : Nat} (hsize : 32 ≤ size) {t : Ty} (hs : TySound t)
    (hr : TypeReads size t) : TypeWord size (typeText t) t := by
  have hword : ∀ {w : Text} {t : Ty}, IsName w → w.length ≤ 5 → nifParseType w = t →
      TypeWord size w t := fun hw hlen hp => typeWord_name hw (by omega) hp
  cases t with
  | u8 => exact hword (isName_of_check (by decide)) (by decide) rfl
  | u16 => exact hword (isName_of_check (by decide)) (by decide) rfl
  | u32 => exact hword (isName_of_check (by decide)) (by decide) rfl
  | seg => exact hword (isName_of_check (by decide)) (by decide) rfl
  | bool => exact hword (isName_of_check (by decide)) (by decide) rfl
  | far => exact hword (isName_of_check (by decide)) (by decide) rfl
  | struct name => exact typeWord_name hs hr.1 (nifParseType_name hs hr.2)
  | bcd n => exact hr.elim
  | void => exact hr.elim
  | array e n =>
    cases e with
    | u8 =>
      exact typeWord_array hsize hs.2 (by decide) (isName_of_check (by decide)) fun y => by
        simp [typeText, nifParseType]
    | u16 =>
      exact typeWord_array hsize hs.2 (by decide) (isName_of_check (by decide)) fun y => by
        simp [typeText, nifParseType]
    | far =>
      exact typeWord_array hsize hs.2 (by decide) (isName_of_check (by decide)) fun y => by
        simp [typeText, nifParseType]
    | u32 => exact hr.elim
    | seg => exact hr.elim
    | bool => exact hr.elim
    | array e' n' => exact hr.elim
    | bcd n' => exact hr.elim
    | struct name => exact hr.elim
    | void => exact hr.elim

/-! ## Lines of a function -/

theorem attrs_end {attrs : Text} (h : AttrsSound attrs) :
    ∀ c, attrs.head? = some c → nifEndsWord c = true := by
  intro c hc
  rw [h c hc]
  decide

theorem enterFn_name (s : NifState) {f : NifFn} (hf : FnSound f)
    (hlen : f.name.toList.length < 64) :
    s.enterFn (f.name.toList ++ f.attrs) =
      { s with curFn := f.name.toList, curParams := [], curRets := [] } := by
  rw [enterFn, nifReadWord_stop (isName_ne_nil hf.name) (nifEndsWord_of_name hf.name) hlen
    (attrs_end hf.attrs)]

theorem step_fn {s : NifState} (hs : s.curStruct = none) (rest : Text) :
    step s (fnWord ++ rest) = s.enterFn rest := by
  rw [step, hs]
  rfl

theorem step_descriptor {s : NifState} (hs : s.curStruct = none) (rest : Text) :
    step s (descriptorWord ++ rest) = s.enterFn rest := by
  rw [step, hs]
  rfl

theorem step_param {s : NifState} (hs : s.curStruct = none) {p : NifParam} {w : Text}
    (hw : TypeWord 32 w p.type) :
    step s (paramLine w p) = { s with curParams := s.curParams ++ [p.type] } := by
  let quoted : Text := [',', ' ', '"'] ++ p.name.toList ++ ['"'] ++ p.attrs
  have hline : paramLine w p =
      paramWord ++ ((' ' :: '%' :: printDec p.vreg) ++ ',' :: ' ' :: (w ++ quoted)) := by
    simp [paramLine, quoted, List.append_assoc]
  have hd : step s (paramLine w p) =
      s.readParam ((' ' :: '%' :: printDec p.vreg) ++ ',' :: ' ' :: (w ++ quoted)) := by
    rw [hline, step, hs]
    rfl
  -- what comes before the first comma is the number of the vreg
  have hcomma : ((' ' :: '%' :: printDec p.vreg) ++ ',' :: ' ' :: (w ++ quoted)).dropWhile
      (fun c => decide (c ≠ ',')) = ',' :: ' ' :: (w ++ quoted) := by
    refine (takeWhile_append_stop _ (fun c hc => ?_) (by simp)).2
    rcases List.mem_cons.mp hc with rfl | hc
    · decide
    · rcases List.mem_cons.mp hc with rfl | hc
      · decide
      · rcases printDec_char hc with rfl | hc
        · decide
        · exact decide_eq_true fun he => absurd (he ▸ hc) (by decide)
  have hword : nifReadWord 32 (skipWs (skipChar ',' (',' :: ' ' :: (w ++ quoted)))) =
      (w, quoted) := by
    have hskip : skipWs (skipChar ',' (',' :: ' ' :: (w ++ quoted))) = skipWs (w ++ quoted) := rfl
    have hsame : nifReadWord 32 (skipWs (w ++ quoted)) = nifReadWord 32 (w ++ quoted) := by
      rw [nifReadWord, nifReadWord, skipWs_skipWs]
    rw [hskip, hsame]
    refine hw.read fun c hc => ?_
    cases hc
    decide
  rw [hd, readParam, hcomma, hword, hw.parses]

theorem step_return {s : NifState} (hs : s.curStruct = none) {r : NifReturn}
    (ha : AttrsSound r.attrs) (hw : TypeWord 64 (typeText r.type) r.type) :
    step s (returnLine r) = { s with curRets := s.curRets ++ [r.type] } := by
  have hd : step s (returnLine r) = s.readReturns (' ' :: (typeText r.type ++ r.attrs)) := by
    rw [returnLine, List.append_assoc, List.append_assoc, step, hs]
    rfl
  rw [hd, readReturns, nifReadWord_blank, hw.read (attrs_end ha), hw.parses]

theorem step_endfn {s : NifState} (hs : s.curStruct = none) : step s endfnWord = s.endFn := by
  rw [step, hs]
  rfl

theorem step_endDescriptor {s : NifState} (hs : s.curStruct = none) :
    step s endDescriptorWord = s.endFn := by
  rw [step, hs]
  rfl

theorem step_empty {s : NifState} (hs : s.curStruct = none) : step s [] = s := by
  rw [step, hs]
  rfl

theorem step_header {s : NifState} (hs : s.curStruct = none) :
    step s "; Nib interface — generated by nib compile".toList = s := by
  rw [step, hs]
  rfl

theorem steps_preserves {s : NifState} (hs : s.curStruct = none) (f : NifFn) :
    (preservesLines f).foldl step s = s := by
  unfold preservesLines
  cases f.preserves with
  | none => rfl
  | some regs =>
    rw [List.foldl_cons, List.foldl_nil, step, hs]
    rfl

theorem steps_params {params : List NifParam} {text : NifParam → Text}
    (hw : ∀ p ∈ params, TypeWord 32 (text p) p.type) :
    ∀ {s : NifState}, s.curStruct = none →
      (params.map fun p => paramLine (text p) p).foldl step s =
        { s with curParams := s.curParams ++ params.map NifParam.type } := by
  induction params with
  | nil =>
    intro s _
    simp
  | cons p params ih =>
    intro s hs
    rw [List.map_cons, List.foldl_cons, step_param hs (hw p List.mem_cons_self),
      ih (fun q hq => hw q (List.mem_cons_of_mem p hq)) (by exact hs)]
    simp

theorem steps_returns {returns : List NifReturn}
    (hw : ∀ r ∈ returns, AttrsSound r.attrs ∧ TypeWord 64 (typeText r.type) r.type) :
    ∀ {s : NifState}, s.curStruct = none →
      (returns.map returnLine).foldl step s =
        { s with curRets := s.curRets ++ returns.map NifReturn.type } := by
  induction returns with
  | nil =>
    intro s _
    simp
  | cons r returns ih =>
    intro s hs
    obtain ⟨ha, hr⟩ := hw r List.mem_cons_self
    rw [List.map_cons, List.foldl_cons, step_return hs ha hr,
      ih (fun q hq => hw q (List.mem_cons_of_mem r hq)) (by exact hs)]
    simp

/-! ## Blocks -/

/-- Reading lines outside of a structure adds to the tables, and ends outside of a structure. -/
def Adds (lines : List Text) (t : NifTables) : Prop :=
  ∀ s : NifState, s.curStruct = none →
    (lines.foldl step s).curStruct = none ∧ (lines.foldl step s).tables = s.tables.append t

namespace NifTables

@[simp] theorem append_nil (t : NifTables) : t.append {} = t := by
  simp [append]

theorem append_assoc (a b c : NifTables) : (a.append b).append c = a.append (b.append c) := by
  simp [append, List.append_assoc]

end NifTables

theorem Adds.nil : Adds [] {} := fun s hs => ⟨hs, by simp⟩

theorem Adds.append {l l' : List Text} {t t' : NifTables} (h : Adds l t) (h' : Adds l' t') :
    Adds (l ++ l') (t.append t') := by
  intro s hs
  obtain ⟨h1, h2⟩ := h s hs
  obtain ⟨h3, h4⟩ := h' _ h1
  rw [List.foldl_append]
  exact ⟨h3, by rw [h4, h2, NifTables.append_assoc]⟩

theorem Adds.ite {l : List Text} {t : NifTables} (h : Adds l t) (b : Bool) :
    Adds (if b then l else []) (if b then t else {}) := by
  cases b with
  | false => exact Adds.nil
  | true => exact h

theorem typeWord_param {p : NifParam} (hs : TySound p.type) (hr : TypeReads 32 p.type) :
    TypeWord 32 (fnParamText p.type) p.type := by
  unfold fnParamText
  split
  · rename_i hfar
    rw [hfar]
    exact typeWord_name (isName_of_check (by decide)) (by decide) rfl
  · exact typeWord_of_reads (by decide) hs hr

theorem endFn_eq {s : NifState} (h : s.curFn ≠ []) :
    s.endFn = { s with
      curFn := []
      tables.functions := s.tables.functions ++ [{
        name := String.ofList s.curFn
        paramTypes := s.curParams
        returnTypes := s.curRets }] } :=
  if_neg h

theorem returnsSound {f : NifFn} (hf : FnSound f) (hr : FnReads f) :
    ∀ r ∈ f.returns, AttrsSound r.attrs ∧ TypeWord 64 (typeText r.type) r.type := by
  intro r hm
  obtain ⟨ht, ha⟩ := hf.returns r hm
  exact ⟨ha, typeWord_of_reads (by decide) ht (hr.2.2 r hm)⟩

theorem adds_fn {f : NifFn} (hf : FnSound f) (hr : FnReads f) :
    Adds (fnLines f) { functions := [f.sig] } := by
  intro s hs
  have hparams : ∀ p ∈ f.params, TypeWord 32 (fnParamText p.type) p.type := fun p hp =>
    typeWord_param (hf.params p hp) (hr.2.1 p hp)
  have hrun : (fnLines f).foldl step s =
      endFn { s with
        curFn := f.name.toList
        curParams := f.params.map NifParam.type
        curRets := f.returns.map NifReturn.type } := by
    -- the name, the registers, the parameters, the returns, and the end of the block
    simp only [fnLines, List.cons_append, List.foldl_cons, List.foldl_append, List.foldl_nil]
    rw [List.append_assoc, step_fn hs, enterFn_name s hf hr.1, steps_preserves (by exact hs),
      steps_params hparams (by exact hs),
      steps_returns (returnsSound hf hr) (by exact hs), step_endfn (by exact hs), step_empty]
    · simp
    · rw [endFn_eq (isName_ne_nil hf.name)]
      exact hs
  rw [hrun, endFn_eq (isName_ne_nil hf.name)]
  exact ⟨hs, by simp [NifTables.append, NifFn.sig, symName_short hr.1]⟩

theorem adds_descriptor {f : NifFn} (hf : FnSound f) (hr : FnReads f) :
    Adds (descriptorLines f) { functions := [f.sig] } := by
  intro s hs
  have hparams : ∀ p ∈ f.params, TypeWord 32 (typeText p.type) p.type := fun p hp =>
    typeWord_of_reads (by decide) (hf.params p hp) (hr.2.1 p hp)
  have hrun : (descriptorLines f).foldl step s =
      endFn { s with
        curFn := f.name.toList
        curParams := f.params.map NifParam.type
        curRets := f.returns.map NifReturn.type } := by
    simp only [descriptorLines, List.cons_append, List.foldl_cons, List.foldl_append,
      List.foldl_nil]
    rw [step_empty hs, List.append_assoc, step_descriptor hs, enterFn_name s hf hr.1,
      steps_params hparams (by exact hs),
      steps_returns (returnsSound hf hr) (by exact hs), steps_preserves (by exact hs),
      step_endDescriptor (by exact hs), step_empty]
    · simp
    · rw [endFn_eq (isName_ne_nil hf.name)]
      exact hs
  rw [hrun, endFn_eq (isName_ne_nil hf.name)]
  exact ⟨hs, by simp [NifTables.append, NifFn.sig, symName_short hr.1]⟩

/-! ## Fields -/

/-- The name that is written for a field. -/
def writtenName (f : Field) : Text := (f.name.map String.toList).getD ['_']

theorem isName_writtenName {f : Field} (hf : FieldSound f) : IsName (writtenName f) := by
  unfold writtenName
  cases h : f.name with
  | none => exact isName_of_check (by decide)
  | some n => exact hf.name n h

theorem length_writtenName {f : Field} (hr : FieldReads f) : (writtenName f).length < 64 := by
  unfold writtenName
  cases h : f.name with
  | none => decide
  | some n => exact (hr.1 n h).1

/-- What follows the name of a field. -/
def writtenType (f : Field) : Text :=
  if f.isBits then bitsWord ++ printDec f.bits ++ [')']
  else typeText (f.type.getD .void) ++
    match f.asType with
    | none => []
    | some t => ' ' :: asWord ++ typeText t

theorem fieldLine_eq {f : Field} (hf : FieldSound f) :
    fieldLine f = ' ' :: ' ' :: ' ' :: ' ' :: (writtenName f ++ ':' :: ' ' :: writtenType f) := by
  cases hb : f.isBits with
  | true => simp [fieldLine, writtenName, writtenType, hb]
  | false =>
    obtain ⟨-, ⟨n, hn⟩, -⟩ := hf.typed hb
    cases ha : f.asType <;> simp [fieldLine, writtenName, writtenType, hb, hn, ha]

theorem readField_name {f : Field} (hf : FieldSound f) (hr : FieldReads f) :
    nifReadWord 64 (fieldLine f) = (writtenName f, ':' :: ' ' :: writtenType f) := by
  rw [fieldLine_eq hf, nifReadWord_blank, nifReadWord_blank, nifReadWord_blank, nifReadWord_blank]
  refine nifReadWord_stop (isName_ne_nil (isName_writtenName hf))
    (nifEndsWord_of_name (isName_writtenName hf)) (length_writtenName hr) fun c hc => ?_
  cases hc
  decide

theorem readWord_skipWs' (size : Nat) (y : Text) :
    nifReadWord size (skipWs y) = nifReadWord size y := by
  rw [nifReadWord, nifReadWord, skipWs_skipWs]

/-- **A field is read back.** -/
theorem readField_line {f : Field} (hf : FieldSound f) (hr : FieldReads f) :
    readField (fieldLine f) = f := by
  have htype : nifReadWord 64 (skipWs (skipChar ':' (skipWs (':' :: ' ' :: writtenType f)))) =
      nifReadWord 64 (writtenType f) := readWord_skipWs' 64 (' ' :: writtenType f)
  unfold readField
  simp only [readField_name hf hr, htype]
  cases hb : f.isBits with
  | true =>
    obtain ⟨ht, ha, hbits⟩ := hf.bits hb
    have hlen := length_printDec hbits
    have hword : nifReadWord 64 (writtenType f) = (bitsWord ++ printDec f.bits, [')']) := by
      rw [writtenType, if_pos hb]
      refine nifReadWord_stop (by simp [bitsWord]) (fun c hc => ?_) ?_ (fun c hc => ?_)
      · rcases List.mem_append.mp hc with hc | hc
        · have hall : bitsWord.all (fun c => !nifEndsWord c) = true := by decide
          simpa using List.all_eq_true.mp hall c hc
        · exact nifEndsWord_of_mem_printDec hc
      · rw [List.length_append]
        simp only [bitsWord, List.length_cons, List.length_nil]
        omega
      · cases hc
        decide
    have hdrop : atoi ((bitsWord ++ printDec f.bits).drop 5) = f.bits := atoi_printDec hbits
    have hname : (if writtenName f = ['_'] then none else some (String.ofList (writtenName f))) =
        f.name := by
      cases hn : f.name with
      | none => simp [writtenName, hn]
      | some n =>
        have hne : n.toList ≠ ['_'] := fun he =>
          (hr.1 n hn).2 hb (String.toList_inj.mp (he.trans (by decide)))
        simp [writtenName, hn, hne]
    rw [hword]
    simp only [hname, hdrop]
    rw [if_pos (show (bitsWord ++ printDec f.bits).take 5 = bitsWord from rfl)]
    cases f
    simp_all
  | false =>
    obtain ⟨hbits, ⟨n, hn⟩, t, ht⟩ := hf.typed hb
    have hw : TypeWord 64 (typeText t) t :=
      typeWord_of_reads (by decide) (hf.type t ht) (hr.2.1 t ht)
    cases ha : f.asType with
    | none =>
      have hword : nifReadWord 64 (writtenType f) = (typeText t, []) := by
        simp only [writtenType, hb, ht, ha]
        exact hw.read (by simp)
      rw [hword]
      simp only [if_neg hw.notBits, hw.parses]
      cases f
      simp_all [writtenName, skipWs, asWord]
    | some u =>
      have hu : TypeWord 64 (typeText u) u :=
        typeWord_of_reads (by decide) (hf.asType u ha) (hr.2.2 u ha)
      have hword : nifReadWord 64 (writtenType f) = (typeText t, ' ' :: asWord ++ typeText u) := by
        simp only [writtenType, hb, ht, ha]
        exact hw.read fun c hc => by
          cases hc
          decide
      have hskip : skipWs (' ' :: asWord ++ typeText u) = asWord ++ typeText u := rfl
      have hread : nifReadWord 64 ((asWord ++ typeText u).drop 3) = (typeText u, []) := by
        have hstop := hu.read (y := []) (by simp)
        rwa [List.append_nil] at hstop
      rw [hword]
      simp only [if_neg hw.notBits, hw.parses, hskip, hread, hu.parses]
      rw [if_pos (show (asWord ++ typeText u).take 3 = asWord from rfl)]
      cases f
      simp_all [writtenName]

/-! ## Structures, globals and constants -/

theorem step_field {s : NifState} {st : StructSig} (hs : s.curStruct = some st) {f : Field}
    (hf : FieldSound f) (hr : FieldReads f) :
    step s (fieldLine f) = { s with curStruct := some { st with fields := st.fields ++ [f] } } := by
  have hhead : (skipWs (fieldLine f)).take 10 ≠ endstructWord := by
    have hskip : skipWs (fieldLine f) = writtenName f ++ ':' :: ' ' :: writtenType f := by
      rw [fieldLine_eq hf]
      exact skipWs_name (isName_writtenName hf) _
    obtain ⟨c, t, hname, hc⟩ := (isName_writtenName hf).start
    rw [hskip, hname]
    intro he
    have hdot : c = '.' := (List.cons.inj he).1
    subst hdot
    exact absurd hc (by decide)
  rw [step, hs]
  simp only [if_neg hhead, readField_line hf hr]

theorem steps_fields {fields : List Field} (h : ∀ f ∈ fields, FieldSound f ∧ FieldReads f) :
    ∀ {s : NifState} {st : StructSig}, s.curStruct = some st →
      (fields.map fieldLine).foldl step s =
        { s with curStruct := some { st with fields := st.fields ++ fields } } := by
  induction fields with
  | nil =>
    intro s st hs
    simp [hs.symm]
  | cons f fields ih =>
    intro s st hs
    obtain ⟨hf, hr⟩ := h f List.mem_cons_self
    rw [List.map_cons, List.foldl_cons, step_field hs hf hr,
      ih (fun g hg => h g (List.mem_cons_of_mem f hg)) rfl]
    simp

theorem step_struct {s : NifState} (hs : s.curStruct = none) {st : StructSig}
    (hname : IsName st.name.toList) (hlen : st.name.toList.length < 64) :
    step s (structWord ++ st.name.toList ++ if st.aligned then ',' :: ' ' :: alignedWord else []) =
      { s with curStruct := some { st with fields := [] } } := by
  have hread : ∀ y : Text, (∀ c, y.head? = some c → nifEndsWord c = true) →
      nifReadWord 64 (st.name.toList ++ y) = (st.name.toList, y) := fun y hy =>
    nifReadWord_stop (isName_ne_nil hname) (nifEndsWord_of_name hname) hlen hy
  have hd : ∀ y : Text, step s (structWord ++ st.name.toList ++ y) =
      s.enterStruct (st.name.toList ++ y) := by
    intro y
    rw [List.append_assoc, step, hs]
    rfl
  rw [hd, enterStruct]
  cases ha : st.aligned with
  | false =>
    simp only [Bool.false_eq_true, if_false]
    rw [hread [] (by simp)]
    simp [skipWs, String.ofList_toList]
  | true =>
    simp only [if_true]
    rw [hread (',' :: ' ' :: alignedWord) (by
      intro c hc
      cases hc
      decide)]
    have hword : ((nifReadWord 64 (' ' :: alignedWord)).1 == alignedWord) = true := by decide
    have hskip : skipWs (',' :: ' ' :: alignedWord) = ',' :: ' ' :: alignedWord := rfl
    simp [hskip, hword, String.ofList_toList]

theorem adds_struct {st : StructSig} (hname : IsName st.name.toList)
    (hlen : st.name.toList.length < 64) (h : ∀ f ∈ st.fields, FieldSound f ∧ FieldReads f) :
    Adds (structLines st) { structs := [st.kept] } := by
  intro s hs
  have hrun : (structLines st).foldl step s =
      { s with tables.structs := s.tables.structs ++ [st] } := by
    simp only [structLines, List.cons_append, List.foldl_cons, List.foldl_append, List.foldl_nil]
    rw [step_struct hs hname hlen, steps_fields h rfl]
    have hend : ∀ u : NifState, u.curStruct = some st → step u endstructWord =
        { u with curStruct := none, tables.structs := u.tables.structs ++ [st] } := by
      intro u hu
      rw [step, hu]
      rfl
    rw [hend _ (by simp), step_empty rfl]
    simp [hs]
  rw [hrun]
  exact ⟨hs, by simp [NifTables.append, StructSig.kept, symName_short hlen]⟩

theorem adds_global {name : String} {t : Ty} (hname : IsName name.toList)
    (hlen : name.toList.length < 64) (hw : TypeWord 64 (typeText t) t) :
    Adds [globalWord ++ name.toList ++ [',', ' '] ++ typeText t]
      { globals := [(symName name, t)] } := by
  intro s hs
  have hread : nifReadWord 64 (name.toList ++ ',' :: ' ' :: typeText t) =
      (name.toList, ',' :: ' ' :: typeText t) :=
    nifReadWord_stop (isName_ne_nil hname) (nifEndsWord_of_name hname) hlen fun c hc => by
      cases hc
      decide
  have htype : nifReadWord 64 (skipChar ',' (skipWs (',' :: ' ' :: typeText t))) =
      (typeText t, []) := by
    have hstop := hw.read (y := []) (by simp)
    rw [List.append_nil] at hstop
    exact hstop
  have hd : step s (globalWord ++ name.toList ++ [',', ' '] ++ typeText t) =
      s.readGlobal (name.toList ++ ',' :: ' ' :: typeText t) := by
    rw [List.append_assoc, List.append_assoc, step, hs]
    rfl
  rw [List.foldl_cons, List.foldl_nil, hd, readGlobal]
  simp only [hread, htype, hw.parses, String.ofList_toList]
  exact ⟨hs, by simp [NifTables.append, symName_short hlen]⟩

/-- The first digit of a positive number. -/
theorem toDigits_head (n : Nat) :
    0 < n → ∃ d ds, Nat.toDigits 10 n = d :: ds ∧ d ≠ '0' ∧ d.isDigit = true := by
  refine toDigits_induction (b := 10) (by decide)
    (P := fun n digits => 0 < n → ∃ d ds, digits = d :: ds ∧ d ≠ '0' ∧ d.isDigit = true) ?_ ?_ n
  · intro d hd hpos
    have hall : ∀ d < 10, 0 < d → Nat.digitChar d ≠ '0' ∧ (Nat.digitChar d).isDigit = true := by
      decide
    exact ⟨_, [], rfl, hall d hd hpos⟩
  · intro n d ds hn _ ih _
    obtain ⟨e, es, rfl, he⟩ := ih hn
    exact ⟨e, _, rfl, he⟩

theorem strtolAny_printDec {n : Int} (h : InInt n) :
    Asm.toInt32 (strtolAny (printDec n)) = n := by
  by_cases hzero : n = 0
  · subst hzero
    decide
  · obtain ⟨d, ds, hdigits, hd, hdigit⟩ := toDigits_head n.natAbs (by omega)
    have hten : strtolAny (printDec n) = (strtol 10 (printDec n)).1 := by
      have hspace : isSpace d = false := by
        by_contra hs
        simp only [isSpace, Bool.not_eq_false, Bool.or_eq_true, beq_iff_eq] at hs
        rcases hs with ((((rfl | rfl) | rfl) | rfl) | rfl) | rfl <;> exact absurd hdigit (by decide)
      have hminus : d ≠ '-' := fun he => absurd (he ▸ hdigit) (by decide)
      have hplus : d ≠ '+' := fun he => absurd (he ▸ hdigit) (by decide)
      by_cases hneg : n < 0
      · have hp : printDec n = '-' :: d :: ds := by rw [printDec, if_pos hneg, hdigits]
        rw [hp, strtolAny, List.dropWhile_cons_of_neg (by decide)]
        simp [hd]
      · have hp : printDec n = d :: ds := by rw [printDec, if_neg hneg, hdigits]
        rw [hp, strtolAny, List.dropWhile_cons_of_neg (by simp [hspace])]
        simp [hd, hminus, hplus]
    have hread := strtol_printDec n [] (by simp)
    rw [List.append_nil] at hread
    obtain ⟨hlow, hhigh⟩ := h
    rw [hten, hread]
    simp only [clampLong, Asm.toInt32]
    omega

theorem adds_const {name : String} {value : Int} (hname : IsName name.toList)
    (hlen : name.toList.length < 64) (hv : InInt value) :
    Adds [constWord ++ name.toList ++ [',', ' '] ++ printDec value]
      { constants := [(symName name, value)] } := by
  intro s hs
  have hread : nifReadWord 64 (name.toList ++ ',' :: ' ' :: printDec value) =
      (name.toList, ',' :: ' ' :: printDec value) :=
    nifReadWord_stop (isName_ne_nil hname) (nifEndsWord_of_name hname) hlen fun c hc => by
      cases hc
      decide
  have hskip : skipWs (skipChar ',' (skipWs (',' :: ' ' :: printDec value))) = printDec value := by
    have hblank : skipWs (skipChar ',' (skipWs (',' :: ' ' :: printDec value))) =
        skipWs (printDec value) := rfl
    rw [hblank]
    refine skipWs_of_head fun c hc => ?_
    exact isSpace_of_nifEndsWord (nifEndsWord_of_mem_printDec (List.mem_of_mem_head? hc))
  have hd : step s (constWord ++ name.toList ++ [',', ' '] ++ printDec value) =
      s.readConst (name.toList ++ ',' :: ' ' :: printDec value) := by
    rw [List.append_assoc, List.append_assoc, step, hs]
    rfl
  rw [List.foldl_cons, List.foldl_nil, hd, NifState.readConst]
  simp only [hread, hskip, strtolAny_printDec hv, String.ofList_toList]
  exact ⟨hs, by simp [NifTables.append, symName_short hlen]⟩

/-! ## Files -/

theorem adds_decl {d : NifDecl} (hs : DeclSound d) (hr : isExported d = true → DeclReads d) :
    Adds (declLines d) (writtenTables d) := by
  cases d with
  | fn f isApi isPub =>
    have hapi : Adds (if isApi then descriptorLines f else [])
        { functions := if isApi then [f.sig] else [] } := by
      cases isApi with
      | false => exact Adds.nil
      | true => exact adds_descriptor hs (hr rfl)
    have hpub : Adds (if isPub then fnLines f else [])
        { functions := if isPub then [f.sig] else [] } := by
      cases isPub with
      | false => exact Adds.nil
      | true => exact adds_fn hs (hr (by simp [isExported]))
    exact hapi.append hpub
  | externFn f hasBody isPub =>
    have hbody : Adds (if hasBody && isPub then fnLines f else [])
        { functions := if hasBody && isPub then [f.sig] else [] } := by
      cases hasBody && isPub with
      | false => exact Adds.nil
      | true => exact adds_fn hs (hr rfl)
    exact (adds_descriptor hs (hr rfl)).append hbody
  | struct s isPub =>
    cases isPub with
    | false => exact Adds.nil
    | true =>
      obtain ⟨hlen, hfields⟩ := hr rfl
      exact adds_struct hs.1 hlen fun f hf => ⟨hs.2 f hf, hfields f hf⟩
  | global name t isPub =>
    cases isPub with
    | false => exact Adds.nil
    | true =>
      obtain ⟨hlen, ht⟩ := hr rfl
      exact adds_global hs.1 hlen (typeWord_of_reads (by decide) hs.2 ht)
  | const name value isPub =>
    cases isPub with
    | false => exact Adds.nil
    | true => exact adds_const hs.1 (hr rfl) hs.2

theorem adds_decls : ∀ {decls : List NifDecl},
    (∀ d ∈ decls, DeclSound d ∧ (isExported d = true → DeclReads d)) →
    Adds (decls.flatMap declLines) (NifTables.concat (decls.map writtenTables))
  | [], _ => Adds.nil
  | d :: decls, h => by
    obtain ⟨hs, hr⟩ := h d List.mem_cons_self
    exact (adds_decl hs hr).append (adds_decls fun e he => h e (List.mem_cons_of_mem d he))

theorem linePieces_fits {line : Text} (h : line.length ≤ 510) :
    linePieces (line.length + 1) line = [line] := if_pos h

theorem flatMap_linePieces : ∀ {file : List Text}, (∀ line ∈ file, line.length ≤ 510) →
    (file.flatMap fun line => linePieces (line.length + 1) line) = file
  | [], _ => rfl
  | line :: file, h => by
    rw [List.flatMap_cons, linePieces_fits (h line List.mem_cons_self),
      flatMap_linePieces fun l hl => h l (List.mem_cons_of_mem line hl)]
    rfl

/-- **An import reads the tables that were written.** -/
theorem import_tables {m : NifModule} (h : Readable m) :
    importNif (nifLines m.decls) = NifTables.concat (m.decls.map writtenTables) := by
  have hadds := adds_decls fun d hd => ⟨m.sound d hd, h.reads d hd⟩
  have hheader : nifHeader.foldl step {} = {} := by
    rw [nifHeader, List.foldl_cons, List.foldl_cons, List.foldl_nil, step_header rfl,
      step_empty rfl]
  rw [importNif, flatMap_linePieces h.fits, nifLines, List.foldl_append, hheader, (hadds {} rfl).2]
  simp [NifTables.append]

/-! ## What can be imported -/

theorem ofList_notMem {w : Text} {words : List String} (h : ∀ v ∈ words, w ≠ v.toList) :
    String.ofList w ∉ words := fun hm =>
  h _ hm String.toList_ofList.symm

/-- A type that has been read through a buffer. -/
theorem typeImported_read {size : Nat} (hsize : 0 < size) (y : Text) :
    TypeImported size (nifParseType (nifReadWord size y).1) := by
  have hlen : (nifReadWord size y).1.length < size := by
    have htake := (List.takeWhile_prefix (fun c => !nifEndsWord c)
      (l := (skipWs y).take (size - 1))).length_le
    rw [List.length_take] at htake
    simp only [nifReadWord]
    omega
  -- whatever the word is, it is one of the branches of `nifParseType`
  generalize (nifReadWord size y).1 = w at hlen
  have hparsed : ∀ {c : Prop} [Decidable c] {a b : Ty}, TypeImported size a →
      (¬c → TypeImported size b) → TypeImported size (if c then a else b) := by
    intro c _ a b ha hb
    split
    · exact ha
    · rename_i hc
      exact hb hc
  unfold nifParseType
  refine hparsed (.inl trivial) fun h1 => ?_
  refine hparsed (.inl trivial) fun h2 => ?_
  refine hparsed (.inl trivial) fun h3 => ?_
  refine hparsed (.inl trivial) fun h4 => ?_
  refine hparsed (.inl trivial) fun h5 => ?_
  refine hparsed (.inl trivial) fun h6 => ?_
  refine hparsed (.inl trivial) fun _ => ?_
  refine hparsed (.inl trivial) fun _ => ?_
  refine hparsed (.inr ⟨_, rfl⟩) fun _ => ?_
  refine hparsed (.inl trivial) fun _ => ?_
  refine hparsed (.inl trivial) fun _ => ?_
  refine .inl ⟨by rwa [String.toList_ofList], ofList_notMem fun v hv => ?_⟩
  simp only [typeWords, List.mem_cons, List.not_mem_nil, or_false] at hv
  rcases hv with rfl | rfl | rfl | rfl | rfl | rfl | rfl
  · exact h1
  · exact h2
  · exact h3
  · exact h4
  · exact h5
  · exact fun hw => h6 (.inl hw)
  · exact fun hw => h6 (.inr hw)

theorem forall_mem_snoc {α : Type} {P : α → Prop} {l : List α} {x : α} (hl : ∀ y ∈ l, P y)
    (hx : P x) : ∀ y ∈ l ++ [x], P y := by
  intro y hy
  rcases List.mem_append.mp hy with hy | hy
  · exact hl y hy
  · cases List.mem_singleton.mp hy
    exact hx

theorem fieldImported_read (text : Text) : FieldImported (readField text) := by
  unfold readField
  dsimp only
  split
  · exact ⟨fun t ht => (Option.some_ne_none t ht.symm).elim,
      fun t ht => (Option.some_ne_none t ht.symm).elim⟩
  · refine ⟨fun t ht => ?_, fun t ht => ?_⟩
    · rw [← Option.some.inj ht]
      exact typeImported_read (by decide) _
    · dsimp only at ht
      split at ht
      · rw [← Option.some.inj ht]
        exact typeImported_read (by decide) _
      · exact (Option.some_ne_none t ht.symm).elim

/-- The types that have been read so far. -/
structure StateImported (s : NifState) : Prop where
  params : ∀ t ∈ s.curParams, TypeImported 32 t
  rets : ∀ t ∈ s.curRets, TypeImported 64 t
  fields : ∀ st, s.curStruct = some st → ∀ f ∈ st.fields, FieldImported f
  tables : TablesImported s.tables

theorem StateImported.readLine {s : NifState} (h : StateImported s) (line : Text) :
    StateImported (s.readLine line) := by
  obtain ⟨hparams, hrets, hfields, htables⟩ := h
  unfold NifState.readLine
  dsimp only
  split
  · exact ⟨fun t ht => (by cases ht), fun t ht => (by cases ht), hfields, htables⟩
  · exact ⟨fun t ht => (by cases ht), fun t ht => (by cases ht), hfields, htables⟩
  · exact ⟨forall_mem_snoc hparams (typeImported_read (by decide) _), hrets, hfields, htables⟩
  · exact ⟨hparams, forall_mem_snoc hrets (typeImported_read (by decide) _), hfields, htables⟩
  · unfold endFn
    split
    · exact ⟨hparams, hrets, hfields, htables⟩
    · exact ⟨hparams, hrets, hfields,
        ⟨forall_mem_snoc htables.functions ⟨hparams, hrets⟩, htables.structs, htables.globals⟩⟩
  · refine ⟨hparams, hrets, fun st hst => ?_, htables⟩
    cases hst
    exact fun f hf => by cases hf
  · exact ⟨hparams, hrets, hfields,
      ⟨htables.functions, htables.structs,
        forall_mem_snoc htables.globals (typeImported_read (by decide) _)⟩⟩
  · exact ⟨hparams, hrets, hfields, ⟨htables.functions, htables.structs, htables.globals⟩⟩
  · exact ⟨hparams, hrets, hfields, htables⟩

theorem StateImported.step {s : NifState} (h : StateImported s) (line : Text) :
    StateImported (s.step line) := by
  unfold NifState.step
  split
  · exact h.readLine line
  · rename_i st hst
    split
    · exact ⟨h.params, h.rets, fun u hu => (by cases hu),
        ⟨h.tables.functions, forall_mem_snoc h.tables.structs (h.fields st hst), h.tables.globals⟩⟩
    · refine ⟨h.params, h.rets, fun u hu => ?_, h.tables⟩
      cases hu
      exact forall_mem_snoc (h.fields st hst) (fieldImported_read line)

theorem StateImported.run {s : NifState} (h : StateImported s) (lines : List Text) :
    StateImported (lines.foldl NifState.step s) := by
  induction lines generalizing s with
  | nil => exact h
  | cons line lines ih => exact ih (h.step line)

/-- **Whatever a file says**, an import has no other types. -/
theorem import_types (file : List Text) : TablesImported (importNif file) := by
  have hstart : StateImported {} :=
    { params := fun t ht => by cases ht
      rets := fun t ht => by cases ht
      fields := fun st hst => by cases hst
      tables := ⟨fun f hf => (by cases hf), fun s hs => (by cases hs), fun g hg => (by cases hg)⟩ }
  exact (hstart.run _).tables

end Nib.Compile
