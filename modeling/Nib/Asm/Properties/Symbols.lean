import Nib.Asm.Symbols

/-!
# Lookup after an update of the symbol table

* `entry_setLabel` — setting a label changes the entry of its name and no other
-/

namespace Nib.Asm

theorem sameName_iff {a b : List Char} :
    sameName a b = true ↔ a.map Char.toLower = b.map Char.toLower := by
  simp [sameName]

theorem sameName_comm (a b : List Char) : sameName a b = sameName b a := by
  rw [Bool.eq_iff_iff, sameName_iff, sameName_iff, eq_comm]

/-- A name may be replaced by the same name in another case. -/
theorem sameName_congr {a b : List Char} (h : sameName a b = true) (c : List Char) :
    sameName c a = sameName c b := by
  rw [Bool.eq_iff_iff, sameName_iff, sameName_iff, sameName_iff.mp h]

theorem findLabel_congr {a b : List Char} (h : sameName a b = true) (labels : List Label) :
    findLabel labels a = findLabel labels b := by
  simp only [findLabel, sameName_congr h]

/-- Type and value of a label. -/
def entry (labels : List Label) (name : List Char) : Option (LabelType × Int) :=
  (findLabel labels name).map fun l => (l.ltype, l.value)

theorem findLabel_updateLabel (name : List Char) {f : Label → Label}
    (hf : ∀ l, (f l).name = l.name) (n : List Char) : ∀ labels : List Label,
    findLabel (updateLabel labels name f) n =
      if sameName name n then (findLabel labels n).map f else findLabel labels n
  | [] => by simp [updateLabel, findLabel]
  | l :: rest => by
    have ih := findLabel_updateLabel name hf n rest
    unfold findLabel at ih ⊢
    unfold updateLabel
    by_cases hl : sameName l.name name = true
    · rw [if_pos hl, List.find?_cons, List.find?_cons, hf]
      by_cases hn : sameName name n = true
      · have hln : sameName l.name n = true := by rw [← sameName_congr hn]; exact hl
        rw [hln, if_pos hn]
        rfl
      · have hln : sameName l.name n = false := by
          rw [sameName_comm, sameName_congr hl, sameName_comm]
          simpa using hn
        rw [hln, if_neg hn]
    · rw [if_neg hl, List.find?_cons, List.find?_cons, ih]
      cases hln : sameName l.name n with
      | false => rfl
      | true =>
        have hn : ¬sameName name n = true := fun hn => hl (by rw [sameName_congr hn]; exact hln)
        simp only [if_neg hn]

/-- **Setting a label changes what is known of its name**, and of no other. -/
theorem map_findLabel_setLabel {α : Type} {f : Label → α} {a : α} {name : List Char}
    (hlen : name.length ≤ 63) (labels : List Label) {value : Int} {ltype : LabelType}
    {segment : Int} (hf : ∀ l : Label, f { l with value, ltype, segment } = a) (n : List Char) :
    (findLabel (setLabel labels name value ltype segment) n).map f =
      if sameName name n then some a else (findLabel labels n).map f := by
  unfold setLabel
  cases hfind : findLabel labels name with
  | some l =>
    simp only
    rw [findLabel_updateLabel name (f := fun l => { l with value, ltype, segment }) fun _ => rfl]
    by_cases hn : sameName name n = true
    · rw [if_pos hn, if_pos hn, ← findLabel_congr hn, hfind]
      exact congrArg some (hf l)
    · rw [if_neg hn, if_neg hn]
  | none =>
    simp only [findLabel, List.find?_append, List.find?_singleton, List.take_of_length_le hlen]
    by_cases hn : sameName name n = true
    · have hnone : List.find? (fun l : Label => sameName l.name n) labels = none := by
        rw [findLabel_congr hn] at hfind
        exact hfind
      rw [hnone, if_pos hn, if_pos hn]
      exact congrArg some (hf { name, value, ltype, segment })
    · rw [if_neg hn, if_neg hn, Option.or_none]

theorem entry_setLabel {name : List Char} (hlen : name.length ≤ 63) (labels : List Label)
    (value : Int) (ltype : LabelType) (segment : Int) (n : List Char) :
    entry (setLabel labels name value ltype segment) n =
      if sameName name n then some (ltype, value) else entry labels n :=
  map_findLabel_setLabel hlen labels (fun _ => rfl) n

/-- Value and segment of a label. -/
def place (labels : List Label) (name : List Char) : Option (Int × Int) :=
  (findLabel labels name).map fun l => (l.value, l.segment)

theorem place_setLabel {name : List Char} (hlen : name.length ≤ 63) (labels : List Label)
    (value : Int) (ltype : LabelType) (segment : Int) (n : List Char) :
    place (setLabel labels name value ltype segment) n =
      if sameName name n then some (value, segment) else place labels n :=
  map_findLabel_setLabel hlen labels (fun _ => rfl) n

end Nib.Asm
