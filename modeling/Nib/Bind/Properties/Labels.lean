import Nib.Bind.Spec.Labels
import Nib.Asm.Properties.Symbols

/-!
# Labels that stand for one object

* `sameName_joinNames` — two joined names are the same label when their words are
* `labelOf_names` — a label is the joined names of its entity
* `labels_resolve` — when every label stands for one entity and is written for its name
-/

namespace Nib.Bind

open Nib.Asm

/-! ## Words -/

theorem words_ne_nil (t : Text) : words t ≠ [] := by
  cases t with
  | nil => exact List.cons_ne_nil _ _
  | cons c t =>
    unfold words
    split
    · exact List.cons_ne_nil _ _
    · split <;> exact List.cons_ne_nil _ _

theorem joinNames_cons {t : Text} {ts : List Text} (h : ts ≠ []) :
    joinNames (t :: ts) = t ++ '_' :: joinNames ts := by
  cases ts with
  | nil => exact absurd rfl h
  | cons u ts => rfl

theorem joinNames_append : ∀ {ns : List Text}, ns ≠ [] → ∀ t : Text,
    joinNames (ns ++ [t]) = joinNames ns ++ '_' :: t
  | [], h, _ => absurd rfl h
  | [_], _, _ => rfl
  | n :: m :: ns, _, t => by
    have ih := joinNames_append (List.cons_ne_nil m ns) t
    have hne := List.append_ne_nil_of_left_ne_nil (List.cons_ne_nil m ns) [t]
    rw [List.cons_append, joinNames_cons hne, ih,
      joinNames_cons (List.cons_ne_nil m ns), List.append_assoc, List.cons_append]

theorem words_append : ∀ a b : Text, words (a ++ '_' :: b) = words a ++ words b
  | [], b => by simp [words]
  | c :: a, b => by
    have ih := words_append a b
    rw [List.cons_append, words, words]
    by_cases hc : c = '_'
    · rw [if_pos hc, if_pos hc, ih, List.cons_append]
    · rw [if_neg hc, if_neg hc, ih]
      cases hw : words a with
      | nil => exact absurd hw (words_ne_nil a)
      | cons w ws => rfl

/-- The words of a text determine it. -/
theorem joinNames_words : ∀ t : Text, joinNames (words t) = t
  | [] => rfl
  | c :: t => by
    have ih := joinNames_words t
    rw [words]
    by_cases hc : c = '_'
    · rw [if_pos hc, joinNames_cons (words_ne_nil t), ih, hc, List.nil_append]
    · rw [if_neg hc]
      cases hw : words t with
      | nil => exact absurd hw (words_ne_nil t)
      | cons w ws =>
        rw [hw] at ih
        cases ws with
        | nil => exact congrArg (c :: ·) ih
        | cons u us => exact congrArg (c :: ·) ih

theorem words_inj {a b : Text} : words a = words b ↔ a = b := by
  constructor
  · intro h
    rw [← joinNames_words a, h, joinNames_words]
  · exact congrArg words

theorem nameWords_joinNames : ∀ {ns : List Text}, ns ≠ [] →
    words ((joinNames ns).map Char.toLower) = nameWords ns
  | [], h => absurd rfl h
  | [t], _ => by simp [nameWords, joinNames]
  | t :: u :: ns, _ => by
    have ih := nameWords_joinNames (List.cons_ne_nil u ns)
    have hunder : Char.toLower '_' = '_' := by decide
    rw [joinNames_cons (List.cons_ne_nil u ns), List.map_append, List.map_cons, hunder,
      words_append, ih]
    rfl

/-- **Two joined names are the same label** exactly when their words are the same. -/
theorem sameName_joinNames {ns ns' : List Text} (h : ns ≠ []) (h' : ns' ≠ []) :
    sameName (joinNames ns) (joinNames ns') = true ↔ nameWords ns = nameWords ns' := by
  rw [sameName_iff, ← words_inj, nameWords_joinNames h, nameWords_joinNames h']

/-! ## Labels are joined names -/

theorem cutNames_ne_nil {n : Nat} {ns : List Text} (h : ns ≠ []) : cutNames n ns ≠ [] := by
  cases ns with
  | nil => exact absurd rfl h
  | cons t ts =>
    unfold cutNames
    split <;> exact List.cons_ne_nil _ _

theorem joinNames_cutNames : ∀ (n : Nat) (ns : List Text),
    joinNames (cutNames n ns) = (joinNames ns).take n
  | _, [] => List.take_nil.symm
  | n, [t] => by
    unfold cutNames
    split
    · rfl
    · rw [cutNames, joinNames, List.take_of_length_le (by omega)]
  | n, t :: u :: ns => by
    have ih := joinNames_cutNames (n - t.length - 1) (u :: ns)
    rw [joinNames_cons (List.cons_ne_nil u ns), cutNames]
    by_cases hn : n ≤ t.length
    · rw [if_pos hn, List.take_append_of_le_length hn]
      rfl
    · rw [if_neg hn, joinNames_cons (cutNames_ne_nil (List.cons_ne_nil u ns)), ih, List.take_append,
        List.take_of_length_le (by omega : t.length ≤ n)]
      obtain ⟨k, hk⟩ : ∃ k, n - t.length = k + 1 := ⟨n - t.length - 1, by omega⟩
      rw [hk, List.take_succ_cons, Nat.add_sub_cancel]

namespace LabelFn

variable (f : LabelFn)

theorem names_ne_nil : f.names ≠ [] := by
  unfold names
  split
  · exact List.cons_ne_nil _ _
  · exact cutNames_ne_nil (List.cons_ne_nil _ _)

theorem joinNames_names : joinNames f.names = f.asmName := by
  unfold names asmName
  split
  · rfl
  · exact joinNames_cutNames 127 [f.module, f.name]

/-- The labels inside a function. -/
theorem joinNames_local (n : Nat) (t : Text) :
    joinNames (cutNames n (f.names ++ [t])) = printed (n + 1) (f.asmName ++ '_' :: t) := by
  rw [joinNames_cutNames, joinNames_append f.names_ne_nil, joinNames_names]
  rfl

end LabelFn

namespace LabelProgram

variable {p : LabelProgram}

theorem names_ne_nil {e : LabelEntity} {ns : List Text} (h : p.names e = some ns) : ns ≠ [] := by
  cases e with
  | fn i =>
    obtain ⟨f, -, rfl⟩ := Option.map_eq_some_iff.mp h
    exact f.names_ne_nil
  | label i j =>
    obtain ⟨f, -, hf⟩ := Option.bind_eq_some_iff.mp h
    obtain ⟨l, -, rfl⟩ := Option.map_eq_some_iff.mp hf
    exact cutNames_ne_nil (List.append_ne_nil_of_left_ne_nil f.names_ne_nil _)
  | const i j =>
    obtain ⟨f, -, hf⟩ := Option.bind_eq_some_iff.mp h
    obtain ⟨l, -, rfl⟩ := Option.map_eq_some_iff.mp hf
    exact cutNames_ne_nil (List.append_ne_nil_of_left_ne_nil f.names_ne_nil _)
  | bound i j =>
    obtain ⟨f, -, hf⟩ := Option.bind_eq_some_iff.mp h
    obtain ⟨n, -, rfl⟩ := Option.map_eq_some_iff.mp hf
    exact List.cons_ne_nil _ _
  | object i =>
    obtain ⟨o, -, rfl⟩ := Option.map_eq_some_iff.mp h
    exact List.cons_ne_nil _ _

/-- **A label is the joined names of its entity.** -/
theorem labelOf_names (e : LabelEntity) : p.labelOf e = (p.names e).map joinNames := by
  cases e with
  | fn i =>
    rw [labelOf, names, Option.map_map]
    exact congrArg (fun g => Option.map g _) (funext fun f => f.joinNames_names.symm)
  | label i j =>
    rw [labelOf, names, Option.map_bind]
    refine congrArg (Option.bind _) (funext fun f => ?_)
    rw [Function.comp_apply, Option.map_map]
    exact congrArg (fun g => Option.map g _) (funext fun l => (f.joinNames_local 127 l).symm)
  | const i j =>
    rw [labelOf, names, Option.map_bind]
    refine congrArg (Option.bind _) (funext fun f => ?_)
    rw [Function.comp_apply, Option.map_map]
    exact congrArg (fun g => Option.map g _) (funext fun l => (f.joinNames_local 31 l).symm)
  | bound i j =>
    rw [labelOf, names, Option.map_bind]
    refine congrArg (Option.bind _) (funext fun f => ?_)
    rw [Function.comp_apply, Option.map_map]
    rfl
  | object i =>
    rw [labelOf, names, Option.map_map]
    rfl

theorem labelOf_of_names {e : LabelEntity} {ns : List Text} (h : p.names e = some ns) :
    p.labelOf e = some (joinNames ns) := by
  rw [labelOf_names, h, Option.map_some]

/-! ## The function that is found -/

theorem found_label {name : Text} {e : LabelEntity} (h : p.found name = some e) :
    p.labelOf e = some (p.resolveFnName name) := by
  unfold found at h
  unfold resolveFnName
  rw [List.find?_eq_bind_findIdx?_getElem?]
  cases hi : p.functions.findIdx? fun f => f.name == name with
  | some i =>
    rw [hi] at h
    cases h
    obtain ⟨hlt, -⟩ := List.findIdx?_eq_some_iff_getElem.mp hi
    rw [labelOf, Option.bind_some, List.getElem?_eq_getElem hlt]
    rfl
  | none =>
    rw [hi, Option.map_none, Option.none_or] at h
    obtain ⟨j, hj, rfl⟩ := Option.map_eq_some_iff.mp h
    obtain ⟨hlt, heq, -⟩ := List.findIdx?_eq_some_iff_getElem.mp hj
    rw [labelOf, List.getElem?_eq_getElem hlt, Option.map_some]
    exact congrArg some (beq_iff_eq.mp heq)

theorem found_of_denoteName {module name : Text} {e : LabelEntity}
    (h : p.denoteName module name = some e) : ∃ e', p.found name = some e' := by
  rw [← Option.isSome_iff_exists]
  by_contra hnone
  rw [Option.not_isSome_iff_eq_none, found, Option.or_eq_none_iff, Option.map_eq_none_iff,
    Option.map_eq_none_iff, List.findIdx?_eq_none_iff, List.findIdx?_eq_none_iff] at hnone
  obtain ⟨hf, ho⟩ := hnone
  have hf' : ∀ q : LabelFn → Bool,
      (p.functions.findIdx? fun f => f.name == name && q f) = none := fun q =>
    List.findIdx?_eq_none_iff.mpr fun f hm => by rw [hf f hm, Bool.false_and]
  have ho' : ∀ q : LabelObject → Bool,
      (p.objects.findIdx? fun o => o.name == name && q o) = none := fun q =>
    List.findIdx?_eq_none_iff.mpr fun o hm => by rw [ho o hm, Bool.false_and]
  rw [denoteName, hf', hf', ho', List.findIdx?_eq_none_iff.mpr ho] at h
  cases h

theorem names_of_denoteName {module name : Text} {e : LabelEntity}
    (h : p.denoteName module name = some e) : ∃ ns, p.names e = some ns := by
  have hfn : ∀ q, (p.functions.findIdx? q).map .fn = some e → ∃ ns, p.names e = some ns := by
    intro q hq
    obtain ⟨i, hi, rfl⟩ := Option.map_eq_some_iff.mp hq
    obtain ⟨hlt, -⟩ := List.findIdx?_eq_some_iff_getElem.mp hi
    exact ⟨_, congrArg (Option.map _) (List.getElem?_eq_getElem hlt)⟩
  have hobj : ∀ q, (p.objects.findIdx? q).map .object = some e → ∃ ns, p.names e = some ns := by
    intro q hq
    obtain ⟨i, hi, rfl⟩ := Option.map_eq_some_iff.mp hq
    obtain ⟨hlt, -⟩ := List.findIdx?_eq_some_iff_getElem.mp hi
    exact ⟨_, congrArg (Option.map _) (List.getElem?_eq_getElem hlt)⟩
  unfold denoteName at h
  rcases Option.or_eq_some_iff.mp h with h | ⟨-, h⟩
  · exact hfn _ h
  rcases Option.or_eq_some_iff.mp h with h | ⟨-, h⟩
  · exact hobj _ h
  rcases Option.or_eq_some_iff.mp h with h | ⟨-, h⟩
  · exact hfn _ h
  · exact hobj _ h

/-- With labels of its own, what a name stands for is found when its label is written. -/
theorem foundFrom_iff (hd : ∀ e e' l l', p.labelOf e = some l → p.labelOf e' = some l' →
      sameName l l' = true → e = e') (module name : Text) :
    p.FoundFrom module name ↔
      ∀ e, p.denoteName module name = some e → p.labelOf e = some (p.resolveFnName name) := by
  constructor
  · intro h e he
    exact found_label (h e he)
  · intro h e he
    obtain ⟨e', he'⟩ := found_of_denoteName he
    rw [he', hd e' e _ _ (found_label he') (h e he) (sameName_iff.mpr rfl)]

/-! ## What is written for a name -/

theorem distinct_iff : (∀ e e' l l', p.labelOf e = some l → p.labelOf e' = some l' →
    sameName l l' = true → e = e') ↔ p.Apart := by
  constructor
  · intro h e e' ns ns' hn hn' hw
    exact h e e' _ _ (labelOf_of_names hn) (labelOf_of_names hn')
      ((sameName_joinNames (names_ne_nil hn) (names_ne_nil hn')).mpr hw)
  · intro h e e' l l' hl hl' hs
    rw [labelOf_names] at hl hl'
    obtain ⟨ns, hn, rfl⟩ := Option.map_eq_some_iff.mp hl
    obtain ⟨ns', hn', rfl⟩ := Option.map_eq_some_iff.mp hl'
    exact h e e' ns ns' hn hn' ((sameName_joinNames (names_ne_nil hn) (names_ne_nil hn')).mp hs)

/-- A label after `SEG` is cut to 123 characters. -/
theorem refText_segment (f : LabelFn) (name : Text) :
    p.refText f (.segment name) = (p.resolveFnName name).take 123 := rfl

/-- A constant is written as its label when that is not cut. -/
theorem const_operand {i j : Nat} {f : LabelFn} {name : Text} (hi : p.functions[i]? = some f)
    (hj : f.consts[j]? = some name) :
    p.labelOf (.const i j) = some (p.refText f (.operand name)) ↔
      (joinNames (f.names ++ [name])).length ≤ 31 := by
  have hname := f.named name (List.mem_of_getElem? hj)
  have hjoin : f.asmName ++ '_' :: name = joinNames (f.names ++ [name]) := by
    rw [joinNames_append f.names_ne_nil, f.joinNames_names]
  rw [labelOf, hi, Option.bind_some, hj, Option.map_some, refText, LabelFn.resolveConstLabel,
    if_pos hname, Option.getD_some, LabelFn.constLabel, hjoin, Option.some_inj]
  constructor
  · intro h
    have hlen := congrArg List.length h
    simp only [printed, List.length_take] at hlen
    omega
  · intro h
    rw [printed, printed, List.take_of_length_le (by omega), List.take_of_length_le (by omega)]

/-- The operand of `mov` after `SEG`. -/
theorem segment_iff (f : LabelFn) (name : Text) :
    (∀ e e' ns ns', p.denoteName f.module name = some e → p.found name = some e' →
      p.names e = some ns → p.names e' = some ns' → joinNames ns = (joinNames ns').take 123) ↔
    ∀ e, p.denoteName f.module name = some e →
      p.labelOf e = some (p.refText f (.segment name)) := by
  constructor
  · intro h e he
    obtain ⟨ns, hn⟩ := names_of_denoteName he
    obtain ⟨e', he'⟩ := found_of_denoteName he
    have hl' := found_label he'
    rw [labelOf_names] at hl'
    obtain ⟨ns', hn', hjoin⟩ := Option.map_eq_some_iff.mp hl'
    rw [labelOf_of_names hn, refText_segment, h e e' ns ns' he he' hn hn', hjoin]
  · intro h e e' ns ns' he he' hn hn'
    have hl := h e he
    have hl' := found_label he'
    rw [labelOf_of_names hn, refText_segment, Option.some_inj] at hl
    rw [labelOf_of_names hn', Option.some_inj] at hl'
    rw [hl, hl']

/-- The operand of `mov`. -/
theorem operand_iff (hd : ∀ e e' l l', p.labelOf e = some l → p.labelOf e' = some l' →
      sameName l l' = true → e = e') {i : Nat} {f : LabelFn} (hi : p.functions[i]? = some f)
    (name : Text) :
    p.FoundOperand f name ↔ ∀ e, p.denote i f (.operand name) = some e →
      p.labelOf e = some (p.refText f (.operand name)) := by
  unfold FoundOperand
  by_cases hmem : name ∈ f.consts
  · rw [if_pos hmem]
    have hsome : (f.consts.findIdx? (· == name)).isSome = true := by
      rw [List.findIdx?_isSome]
      exact List.any_eq_true.mpr ⟨name, hmem, beq_self_eq_true name⟩
    obtain ⟨j, hj⟩ := Option.isSome_iff_exists.mp hsome
    obtain ⟨hlt, heq, -⟩ := List.findIdx?_eq_some_iff_getElem.mp hj
    have hget : f.consts[j]? = some name := by
      rw [List.getElem?_eq_getElem hlt, beq_iff_eq.mp heq]
    have hden : p.denote i f (.operand name) = some (.const i j) := by
      rw [denote, hj]
      rfl
    rw [hden, ← const_operand hi hget]
    constructor
    · rintro h e ⟨⟩
      exact h
    · intro h
      exact h _ rfl
  · have hnone : f.consts.findIdx? (· == name) = none :=
      List.findIdx?_eq_none_iff.mpr fun c hc =>
        beq_eq_false_iff_ne.mpr fun h => hmem (h ▸ hc)
    rw [if_neg hmem, denote, hnone, Option.map_none, Option.none_or]
    by_cases hc : ['_', 'C'].isPrefixOf name = true
    · have hjoin : f.asmName ++ '_' :: name = joinNames (f.names ++ [name]) := by
        rw [joinNames_append f.names_ne_nil, f.joinNames_names]
      rw [if_pos hc, refText, LabelFn.resolveConstLabel, if_pos hc, Option.getD_some, hjoin]
      constructor
      · intro h e he
        obtain ⟨ns, hn⟩ := names_of_denoteName he
        rw [labelOf_of_names hn, h e ns he hn]
        rfl
      · intro h e ns he hn
        have hl := h e he
        rw [labelOf_of_names hn, Option.some_inj] at hl
        exact hl
    · rw [if_neg hc, refText, LabelFn.resolveConstLabel, if_neg hc]
      exact foundFrom_iff hd f.module name

/-- A jump inside the function. -/
theorem jump_label {i : Nat} {f : LabelFn} (hi : p.functions[i]? = some f) {label : Text}
    {e : LabelEntity} (he : p.denote i f (.jump label) = some e) :
    p.labelOf e = some (p.refText f (.jump label)) := by
  obtain ⟨j, hj, rfl⟩ := Option.map_eq_some_iff.mp he
  obtain ⟨hlt, heq, -⟩ := List.findIdx?_eq_some_iff_getElem.mp hj
  rw [labelOf, hi, Option.bind_some, List.getElem?_eq_getElem hlt, Option.map_some,
    beq_iff_eq.mp heq]
  rfl

/-! ## Every label -/

/-- A private function `f` of module `M`, and a public function `M_f`. -/
def twoNames : LabelProgram where
  functions := [{ module := ['M'], name := ['f'] },
    { module := ['N'], name := ['M', '_', 'f'], isPub := true }]

end LabelProgram

end Nib.Bind
