import Mathlib
import Nib.Bind.Spec.Data
import Nib.Bind.Properties.Strings
import Nib.Asm.Properties.Symbols

/-!
# Initialised data

* `nextToken_name` — a name is read as one token
* `elemLine_bytes` — the bytes of an element: its value when the line fits, fewer otherwise
* `data_faithful` — when the values of a declaration are in the image
-/

namespace Nib.Bind

open Nib.Asm Nib.Compile Infra

/-! ## Names as tokens -/

theorem isAlpha_not_digit {c : Char} (h : c.isAlpha = true) : c.isDigit = false := by
  simp only [Char.isAlpha, Char.isUpper, Char.isLower, Char.isDigit, Bool.or_eq_true,
    Bool.and_eq_true, decide_eq_true_eq, Bool.and_eq_false_iff, decide_eq_false_iff_not, ge_iff_le,
    UInt32.le_iff_toNat_le] at h ⊢
  have hA : ('A' : Char).val.toNat = 65 := rfl
  have ha : ('a' : Char).val.toNat = 97 := rfl
  have hnine : ('9' : Char).val.toNat = 57 := rfl
  omega

/-- A character of a name is no punctuation. -/
theorem nameChar_token {c : Char} (h : c.isAlphanum = true ∨ c = '_') (s : List Char) :
    nextToken (c :: s) =
      if c.isDigit then ((lexNumber (c :: s)).1, (lexNumber (c :: s)).2, 0)
      else ((lexIdent (c :: s)).1, (lexIdent (c :: s)).2, 0) := by
  have hne : ∀ d : Char, d.isAlphanum = false → d ≠ '_' → c ≠ d := by
    rintro d hd hd' rfl
    rcases h with h | h
    · rw [h] at hd
      cases hd
    · exact hd' h
  have hpunct : punct c = none := by
    unfold punct
    split <;> first
      | rfl
      | exact absurd rfl (hne _ (by decide) (by decide))
  have hskip : skipWs (c :: s) = c :: s := by
    refine skipWs_of_head fun d hd => ?_
    cases hd
    exact isSpace_of_endsWord (by
      by_contra he
      simp only [endsWord, isSpace, Bool.not_eq_false, Bool.or_eq_true, beq_iff_eq] at he
      rcases he with (((((((he | he) | he) | he) | he) | he) | he) | he) | he <;>
        exact hne _ (by decide) (by decide) he)
  have hquote : ¬(c = '\'' || c = '"') = true := by
    simp [hne '\'' (by decide) (by decide), hne '"' (by decide) (by decide)]
  have hend : ¬(c = '\n' || c = ';') = true := by
    simp [hne '\n' (by decide) (by decide), hne ';' (by decide) (by decide)]
  have hstart : c.isDigit = false → isIdentStart c = true := by
    intro hd
    rcases h with h | rfl
    · rw [Char.isAlphanum, hd, Bool.or_false] at h
      rw [isIdentStart, h]
      rfl
    · rfl
  unfold nextToken
  rw [hskip]
  simp only [hpunct, if_neg hquote, if_neg hend]
  by_cases hd : c.isDigit = true
  · rw [if_pos hd, if_pos hd]
  · have hd' : c.isDigit = false := by simpa using hd
    rw [if_neg hd, if_neg hd, if_pos (hstart hd')]

/-- A name is read as one token, as far as the buffer holds it. -/
theorem nextToken_name {name rest : Text} (h : IsName name)
    (hr : ∀ c, rest.head? = some c → isIdentChar c = false) :
    nextToken (' ' :: name ++ rest) =
      ({ type := .ident, sval := name.take 126 }, name.drop 126 ++ rest, 0) := by
  have hword : ((name ++ rest).take 126).takeWhile isIdentChar = name.take 126 :=
    takeWhile_take isIdentChar 126 rest (isIdentChar_of_isName h) hr
  obtain ⟨c, t, hname, hc⟩ := h.start
  have hdigit : c.isDigit = false := by
    rcases hc with hc | rfl
    · exact isAlpha_not_digit hc
    · decide
  have hlex : lexIdent (name ++ rest) =
      ({ type := .ident, sval := name.take 126 }, name.drop 126 ++ rest) := by
    simp only [lexIdent, hword]
    rw [List.length_take, List.drop_append]
    congr 1
    rcases Nat.le_total 126 name.length with hle | hle
    · rw [Nat.min_eq_left hle, Nat.sub_eq_zero_of_le hle, List.drop_zero]
    · rw [Nat.min_eq_right hle, Nat.sub_self, List.drop_zero, List.drop_length,
        List.drop_of_length_le hle]
  have hspace : nextToken (' ' :: name ++ rest) = nextToken (name ++ rest) := rfl
  have htoken := nameChar_token (h.chars c (hname ▸ List.mem_cons_self)) (t ++ rest)
  have hline : c :: (t ++ rest) = name ++ rest := by rw [hname, List.cons_append]
  rw [hline, hdigit, hlex] at htoken
  rw [hspace, htoken]
  rfl

/-- What is left of a name that is too long is no comma. -/
theorem nextToken_leftover {c : Char} (h : c.isAlphanum = true ∨ c = '_') (s : List Char) :
    ((nextToken (c :: s)).1.type = .number ∨ (nextToken (c :: s)).1.type = .ident) ∧
      (nextToken (c :: s)).2.2 = 0 := by
  rw [nameChar_token h]
  by_cases hd : c.isDigit = true
  · rw [if_pos hd]
    refine ⟨.inl ?_, rfl⟩
    unfold lexNumber
    simp only
    split
    · rfl
    · split
      · rfl
      · split <;> rfl
  · rw [if_neg hd]
    exact ⟨.inr rfl, rfl⟩

/-! ## Data lines -/

theorem isWord_iff {w : String} {s : Text} :
    isWord w s = true ↔ s.map Char.toLower = w.toList.map Char.toLower := sameName_iff

theorem isWord_length {w : String} {s : Text} (h : isWord w s = true) :
    s.length = w.toList.length := by
  have hlen := congrArg List.length (isWord_iff.mp h)
  simpa using hlen

/-- A directive is one word only. -/
theorem isWord_ne {w w' : String} {s : Text} (h : isWord w s = true)
    (hne : w.toList.map Char.toLower ≠ w'.toList.map Char.toLower) : isWord w' s = false := by
  by_contra hs
  exact hne ((isWord_iff.mp h).symm.trans (isWord_iff.mp (by simpa using hs)))

theorem parseStatement_db {env : Env} {text w rest : Text}
    (htoken : nextToken text = ({ type := .ident, sval := w }, rest, 0))
    (hw : isWord "db" w = true) :
    parseStatement env { ptr := text } =
      (.data (parseDb (rest.length + 1) env { ptr := rest }).1,
        (parseDb (rest.length + 1) env { ptr := rest }).2) := by
  have hread : peekToken env { ptr := text } = ({ type := .ident, sval := w },
      afterToken { ptr := text } { type := .ident, sval := w } rest) := by
    have hr := @peekToken_read env { ptr := text } rfl
    rw [htoken] at hr
    exact hr
  have hconsume : consume env (afterToken { ptr := text } { type := .ident, sval := w } rest) =
      ({ type := .ident, sval := w }, { ptr := rest }) := consume_some rfl
  have horg : isWord "org" w = false := isWord_ne hw (by decide)
  have hendorg : isWord "endorg" w = false := isWord_ne hw (by decide)
  rw [parseStatement, Parse.bind_apply, hread]
  simp only [reduceCtorEq, if_false, Parse.bind_apply, hconsume, Parse.getState, ne_eq,
    not_true_eq_false, horg, hendorg, hw, Bool.false_eq_true, if_true]
  rfl

theorem parseStatement_dw {env : Env} {text w rest : Text}
    (htoken : nextToken text = ({ type := .ident, sval := w }, rest, 0))
    (hw : isWord "dw" w = true) :
    parseStatement env { ptr := text } =
      (.data (parseDw (rest.length + 1) env { ptr := rest }).1,
        (parseDw (rest.length + 1) env { ptr := rest }).2) := by
  have hread : peekToken env { ptr := text } = ({ type := .ident, sval := w },
      afterToken { ptr := text } { type := .ident, sval := w } rest) := by
    have hr := @peekToken_read env { ptr := text } rfl
    rw [htoken] at hr
    exact hr
  have hconsume : consume env (afterToken { ptr := text } { type := .ident, sval := w } rest) =
      ({ type := .ident, sval := w }, { ptr := rest }) := consume_some rfl
  have horg : isWord "org" w = false := isWord_ne hw (by decide)
  have hendorg : isWord "endorg" w = false := isWord_ne hw (by decide)
  have hdb : isWord "db" w = false := isWord_ne hw (by decide)
  rw [parseStatement, Parse.bind_apply, hread]
  simp only [reduceCtorEq, if_false, Parse.bind_apply, hconsume, Parse.getState, ne_eq,
    not_true_eq_false, horg, hendorg, hdb, hw, Bool.false_eq_true, if_true]
  rfl

/-- The line of a value or a list of values. -/
def dwLine (rest : Text) : Text := [' ', ' ', ' ', ' ', 'd', 'w', ' '] ++ rest

theorem splitLine_dwLine (rest : Text) :
    splitLine (dwLine rest) =
      match labelBefore ['d', 'w'] (' ' :: rest) with
      | none => (.none, dwLine rest)
      | some (name, rest) =>
        let p := skipWs rest
        if startsWithWord "equ" p then (.equ name (p.drop 3), [])
        else if startsWithWord "db" p || startsWithWord "dw" p then (.pos name .data, rest)
        else (.pos name .code, rest) := rfl

/-- A line that is no label. -/
theorem lineBytes_dwLine (env : Env) {rest : Text}
    (h : labelBefore ['d', 'w'] (' ' :: rest) = none) :
    lineBytes env (dwLine rest) = (parseDw (rest.length + 2) env { ptr := ' ' :: rest }).1 := by
  have hsplit : (splitLine (dwLine rest)).2 = dwLine rest := by
    rw [splitLine_dwLine, h]
  have htoken : nextToken (dwLine rest) =
      ({ type := .ident, sval := ['d', 'w'] }, ' ' :: rest, 0) := rfl
  have hstmt := @parseStatement_dw env _ _ _ htoken (by decide)
  rw [lineBytes, hsplit, hstmt]
  rfl

/-! ## References -/

/-- What follows a label in a list. -/
def EndsName (rest : Text) : Prop := rest = [] ∨ rest.head? = some ','

theorem startsWithWord_name {w : String} (hw : ',' ∉ w.toList.map Char.toLower)
    {name rest : Text} (h : ∀ c ∈ name, c.isAlphanum = true ∨ c = '_') (hr : EndsName rest) :
    startsWithWord w (name ++ rest) = isWord w name := by
  have hlen : w.length = w.toList.length := String.length_toList.symm
  unfold startsWithWord
  rw [hlen]
  rcases Nat.lt_trichotomy name.length w.toList.length with hlt | heq | hgt
  · -- a shorter name: the word would reach over its end
    have hname : isWord w name = false := by
      by_contra hs
      have := isWord_length (by simpa using hs : isWord w name = true)
      omega
    have htake : isWord w ((name ++ rest).take w.toList.length) = false := by
      by_contra hs
      have hword := isWord_iff.mp (by simpa using hs : isWord w _ = true)
      rcases hr with rfl | hhead
      · rw [List.append_nil, List.take_of_length_le (by omega)] at hword
        have hlen := congrArg List.length hword
        simp only [List.length_map] at hlen
        omega
      · obtain ⟨r, rfl⟩ : ∃ r, rest = ',' :: r := by
          cases rest with
          | nil => cases hhead
          | cons c r =>
            cases hhead
            exact ⟨r, rfl⟩
        have hmem : ',' ∈ (name ++ ',' :: r).take w.toList.length := by
          obtain ⟨k, hk⟩ : ∃ k, w.toList.length - name.length = k + 1 :=
            ⟨w.toList.length - name.length - 1, by omega⟩
          rw [List.take_append, hk, List.take_succ_cons]
          exact List.mem_append_right _ List.mem_cons_self
        refine absurd ?_ hw
        rw [← hword]
        exact List.mem_map.mpr ⟨',', hmem, by decide⟩
    rw [hname, htake, Bool.false_and]
  · rw [List.take_append_of_le_length (Nat.le_of_eq heq.symm),
      List.take_of_length_le (Nat.le_of_eq heq), List.drop_append,
      List.drop_of_length_le (Nat.le_of_eq heq), heq, Nat.sub_self, List.drop_zero, List.nil_append]
    rcases hr with rfl | hhead
    · exact Bool.and_true _
    · cases rest with
      | nil => cases hhead
      | cons c r =>
        cases hhead
        exact Bool.and_true _
  · -- a longer name goes on after the word
    have hname : isWord w name = false := by
      by_contra hs
      have := isWord_length (by simpa using hs : isWord w name = true)
      omega
    obtain ⟨c, r, hdrop⟩ : ∃ c r, name.drop w.toList.length = c :: r :=
      List.exists_cons_of_ne_nil (List.drop_eq_nil_iff.not.mpr (by omega))
    have hc := h c (List.mem_of_mem_drop (hdrop ▸ List.mem_cons_self))
    rw [hname, List.drop_append_of_le_length (by omega), hdrop]
    rcases hc with hc | rfl
    · simp [hc]
    · simp

/-- A label after `dw` is taken for what `dw` labels when it is the name of a directive. -/
theorem labelBefore_name {name rest : Text} (h : IsName name) (hr : EndsName rest) :
    labelBefore ['d', 'w'] (' ' :: (name ++ rest)) =
      if isDataWord name then some (['d', 'w'], name ++ rest) else none := by
  have hws : skipWs (' ' :: (name ++ rest)) = name ++ rest := skipWs_name h rest
  have hcolon : ∀ r, name ++ rest ≠ ':' :: r := by
    intro r heq
    obtain ⟨c, t, rfl, -⟩ := h.start
    have hc := isName_endsWord h c List.mem_cons_self
    rw [(List.cons.inj heq).1] at h
    rcases h.chars ':' List.mem_cons_self with hc | hc
    · exact absurd hc (by decide)
    · cases hc
  have hequ := @startsWithWord_name "equ" (by decide) _ _ h.chars hr
  have hdb := @startsWithWord_name "db" (by decide) _ _ h.chars hr
  have hdw := @startsWithWord_name "dw" (by decide) _ _ h.chars hr
  unfold labelBefore isDataWord
  rw [hws]
  split
  · rename_i heq
    exact absurd heq (hcolon _)
  · rw [hequ, hdb, hdw]

theorem endsName_ident {rest : Text} (hr : EndsName rest) :
    ∀ c, rest.head? = some c → isIdentChar c = false := by
  intro c hc
  rcases hr with rfl | hr
  · cases hc
  · rw [hr] at hc
    cases hc
    rfl

theorem length_emit16 (v : Int) : (emit16 v).bytes.length = 2 := rfl

/-- A label that fits into the buffer is one value. -/
theorem readsValue_name (env : Env) {name rest rest' : Text} {t : Token} (h : IsName name)
    (hlen : name.length ≤ 126) (hr : EndsName rest) (hnext : nextToken rest = (t, rest', 0))
    (ht : EndsExpr t) (hident : t.type ≠ .ident) :
    ReadsValue env name (labelValue env name) rest t rest' := by
  intro s hpeek hptr
  have htoken := nextToken_name h (endsName_ident hr)
  rw [List.take_of_length_le hlen, List.drop_of_length_le hlen, List.nil_append] at htoken
  obtain ⟨e, hexpr⟩ := @parseExpr_label env
    (afterToken s { type := .ident, sval := name } rest) name t rest' rfl hnext ht fun _ => hident
  refine ⟨{ type := .ident, sval := name }, _, e, ?_, .inr rfl, hexpr⟩
  rw [peekToken_read hpeek, hptr, htoken]
  rfl

/-- A label that is too long is cut, and the list ends. -/
theorem readsValue_long (env : Env) {name rest : Text} (h : IsName name)
    (hlen : 126 < name.length) (hr : EndsName rest) : ∃ t rest', t.type ≠ .comma ∧
      ReadsValue env name (labelValue env (name.take 126)) rest t rest' := by
  obtain ⟨c, l, hdrop⟩ : ∃ c l, name.drop 126 = c :: l :=
    List.exists_cons_of_ne_nil (List.drop_eq_nil_iff.not.mpr (by omega))
  have hc := h.chars c (List.mem_of_mem_drop (hdrop ▸ List.mem_cons_self))
  obtain ⟨htype, herr⟩ := nextToken_leftover hc (l ++ rest)
  have hends : EndsExpr (nextToken (c :: (l ++ rest))).1 := by
    unfold EndsExpr
    rcases htype with ht | ht <;> rw [ht] <;> decide
  refine ⟨(nextToken (c :: (l ++ rest))).1, (nextToken (c :: (l ++ rest))).2.1, ?_, ?_⟩
  · rcases htype with ht | ht <;> rw [ht] <;> decide
  · intro s hpeek hptr
    have htoken := nextToken_name h (endsName_ident hr)
    rw [hdrop] at htoken
    have hnext : nextToken (c :: l ++ rest) = ((nextToken (c :: (l ++ rest))).1,
        (nextToken (c :: (l ++ rest))).2.1, 0) := by
      rw [← herr]
      rfl
    have hseg : isWord "seg" (name.take 126) = true →
        (nextToken (c :: (l ++ rest))).1.type ≠ .ident := by
      intro hword
      have hthree := isWord_length hword
      rw [List.length_take] at hthree
      have hseg : ("seg" : String).toList.length = 3 := rfl
      omega
    obtain ⟨e, hexpr⟩ := @parseExpr_label env
      (afterToken s { type := .ident, sval := name.take 126 } (c :: l ++ rest)) (name.take 126)
      _ _ rfl hnext hends hseg
    refine ⟨{ type := .ident, sval := name.take 126 }, _, e, ?_, .inr rfl, hexpr⟩
    rw [peekToken_read hpeek, hptr, htoken]
    rfl

/-- The segment of a label is one value. -/
theorem readsValue_seg (env : Env) {name : Text} (h : IsName name) (hlen : name.length ≤ 126) :
    ReadsValue env (['S', 'E', 'G', ' '] ++ name) (labelSegment env name) [] eolToken [] := by
  intro s hpeek hptr
  have htoken := @nextToken_name name [] h (by simp)
  rw [List.take_of_length_le hlen, List.drop_of_length_le hlen, List.append_nil,
    List.append_nil] at htoken
  have hseg : nextToken (' ' :: (['S', 'E', 'G', ' '] ++ name)) =
      ({ type := .ident, sval := ['S', 'E', 'G'] }, ' ' :: name, 0) := rfl
  obtain ⟨e, hexpr⟩ := @parseExpr_seg env
    (afterToken s { type := .ident, sval := ['S', 'E', 'G'] } (' ' :: name)) name [] eolToken []
    rfl htoken rfl endsExpr_eol
  refine ⟨{ type := .ident, sval := ['S', 'E', 'G'] }, _, e, ?_, .inr rfl, hexpr⟩
  rw [peekToken_read hpeek, hptr, List.append_nil, hseg]
  rfl

/-- The line of a near reference. -/
theorem nearLine_bytes (env : Env) {name : Text} (h : IsName name)
    (hword : isDataWord name = false) :
    lineBytes env (dwLine name) = (emit16 (labelValue env (name.take 126))).bytes := by
  have hlabel := labelBefore_name h (.inl rfl)
  rw [List.append_nil, if_neg (by rw [hword]; decide)] at hlabel
  rw [lineBytes_dwLine env hlabel]
  by_cases hlen : name.length ≤ 126
  · rw [List.take_of_length_le hlen]
    exact parseDw_last _ rfl (List.append_nil _).symm
      (readsValue_name env h hlen (.inl rfl) rfl endsExpr_eol (by decide)) (by decide)
  · obtain ⟨t, rest', ht, hv⟩ := readsValue_long env h (by omega) (.inl rfl)
    exact parseDw_last _ rfl (List.append_nil _).symm hv ht

/-- The text of a far reference. -/
def farText (name : Text) : Text := name ++ [',', ' ', 'S', 'E', 'G', ' '] ++ name

/-- The line of a far reference. -/
theorem farLine_bytes (env : Env) {name : Text} (h : IsName name)
    (hword : isDataWord name = false) (hlen : name.length ≤ 126) :
    lineBytes env (dwLine (farText name)) =
      (emit16 (labelValue env name)).bytes ++ (emit16 (labelSegment env name)).bytes := by
  have hlabel := labelBefore_name h
    (.inr rfl : EndsName (',' :: ' ' :: (['S', 'E', 'G', ' '] ++ name)))
  rw [if_neg (by rw [hword]; decide)] at hlabel
  have htext : farText name = name ++ ',' :: ' ' :: (['S', 'E', 'G', ' '] ++ name) := by
    rw [farText, List.append_assoc]
    rfl
  rw [← htext] at hlabel
  obtain ⟨s', hpeek, hptr, hbytes⟩ := @parseDw_cons env
    { ptr := ' ' :: farText name } _ _ _ ((farText name).length + 1) rfl (by rw [htext]; rfl)
    (readsValue_name env h hlen (.inr rfl) rfl endsExpr_comma (by decide))
  have hlast := parseDw_last (farText name).length hpeek (hptr.trans (List.append_nil _).symm)
    (readsValue_seg env h hlen) (by decide)
  rw [lineBytes_dwLine env hlabel, hbytes, hlast]

/-- A far reference with a label that is too long loses its segment. -/
theorem farLine_long (env : Env) {name : Text} (h : IsName name)
    (hword : isDataWord name = false) (hlen : 126 < name.length) :
    (lineBytes env (dwLine (farText name))).length = 2 := by
  have hends : EndsName (',' :: ' ' :: (['S', 'E', 'G', ' '] ++ name)) := .inr rfl
  have hlabel := labelBefore_name h hends
  rw [if_neg (by rw [hword]; decide)] at hlabel
  have htext : farText name = name ++ ',' :: ' ' :: (['S', 'E', 'G', ' '] ++ name) := by
    rw [farText, List.append_assoc]
    rfl
  rw [← htext] at hlabel
  obtain ⟨t, rest', ht, hv⟩ := readsValue_long env h hlen hends
  rw [lineBytes_dwLine env hlabel, parseDw_last _ rfl (by rw [htext]; rfl) hv ht]
  rfl

/-- A reference to a function with the name of a directive emits nothing. -/
theorem wordLine_bytes (env : Env) {name rest : Text} (h : IsName name)
    (hword : isDataWord name = true) (hr : EndsName rest) :
    lineBytes env (dwLine (name ++ rest)) = [] := by
  have hlabel := labelBefore_name h hr
  rw [if_pos hword] at hlabel
  have hws := skipWs_name h rest
  have hequ := @startsWithWord_name "equ" (by decide) _ _ h.chars hr
  have hsplit := splitLine_dwLine (name ++ rest)
  rw [hlabel] at hsplit
  by_cases hw : isWord "equ" name = true
  · simp only [hws, hequ, if_pos hw] at hsplit
    rw [lineBytes, hsplit]
    rfl
  · have hrest : (splitLine (dwLine (name ++ rest))).2 = name ++ rest := by
      rw [hsplit]
      simp only [hws, hequ, if_neg hw]
      split <;> rfl
    have hdata : isWord "db" name = true ∨ isWord "dw" name = true := by
      have hor := hword
      rw [isDataWord, Bool.eq_false_iff.mpr hw, Bool.false_or, Bool.or_eq_true] at hor
      exact hor
    have hlen : name.length ≤ 126 := by
      have hdb : ("db" : String).toList.length = 2 := rfl
      have hdw : ("dw" : String).toList.length = 2 := rfl
      rcases hdata with hd | hd <;> have := isWord_length hd <;> omega
    have htoken : nextToken (name ++ rest) = ({ type := .ident, sval := name }, rest, 0) := by
      have ht := nextToken_name h (endsName_ident hr)
      rwa [List.take_of_length_le hlen, List.drop_of_length_le hlen, List.nil_append] at ht
    have hcases : rest = [] ∨ ∃ r, rest = ',' :: r := by
      rcases hr with rfl | hr
      · exact .inl rfl
      · cases rest with
        | nil => cases hr
        | cons c r =>
          cases hr
          exact .inr ⟨r, rfl⟩
    rw [lineBytes, hrest]
    rcases hdata with hd | hd
    · rw [parseStatement_db htoken hd]
      rcases hcases with rfl | ⟨r, rfl⟩ <;> rfl
    · rw [parseStatement_dw htoken hd]
      rcases hcases with rfl | ⟨r, rfl⟩ <;> rfl

/-! ## Numbers -/

theorem printHex_cons (w n : Nat) : ∃ d ds, printHex w n = d :: ds ∧ isXDigit d = true := by
  obtain ⟨d, ds, hcons⟩ := List.exists_cons_of_ne_nil (printHex_ne_nil w n)
  exact ⟨d, ds, hcons, isXDigit_of_mem_printHex (hcons ▸ List.mem_cons_self)⟩

/-- A prefix is skipped. -/
theorem strtolAuto_hex {w n : Nat} {rest : Text}
    (hr : ∀ c, rest.head? = some c → isXDigit c = false ∧ c ≠ 'x' ∧ c ≠ 'X') :
    strtolAuto ('0' :: 'x' :: (printHex w n ++ rest)) = (clampLong n, rest) := by
  obtain ⟨d, ds, hcons, hd⟩ := printHex_cons w n
  have hdigits : ∀ c ∈ printHex w n, isBaseDigit 16 c = true := fun c hc =>
    isXDigit_of_mem_printHex hc
  have hbase : strtol 16 ('0' :: 'x' :: (printHex w n ++ rest)) = (clampLong n, rest) := by
    obtain ⟨htake, hdrop⟩ := takeWhile_append_stop rest hdigits fun c hc => (hr c hc).1
    have hpre : skipHexPrefix 16 ('0' :: 'x' :: (printHex w n ++ rest)) =
        printHex w n ++ rest := by
      rw [hcons]
      exact if_pos (by simp [hd])
    have hempty : (printHex w n).isEmpty = false :=
      List.isEmpty_eq_false_iff.mpr (printHex_ne_nil w n)
    have hspace : ('0' :: 'x' :: (printHex w n ++ rest)).dropWhile isSpace =
        '0' :: 'x' :: (printHex w n ++ rest) := rfl
    have hsign : strtolSign ('0' :: 'x' :: (printHex w n ++ rest)) =
        (false, '0' :: 'x' :: (printHex w n ++ rest)) := rfl
    rw [strtol_sign, hspace, hsign]
    simp only [hpre, htake, hdrop, hempty, Bool.false_eq_true, if_false, digitsValue_printHex]
  rw [← hbase, hcons]
  exact if_pos (by simp [hd])

/-- A list of numbers is no label. -/
theorem labelBefore_hex (ds : Text) : labelBefore ['d', 'w'] (' ' :: '0' :: 'x' :: ds) = none := rfl

/-- The line of a number. -/
theorem wordLine_hex (env : Env) {n : Nat} (h : n < 2147483648) :
    lineBytes env (dwLine ('0' :: 'x' :: printHex 4 n)) = (emit16 n).bytes := by
  have hv := readsValue_numeral env (reads_hex 4 n h) (.inl rfl) rfl endsExpr_eol
  rw [lineBytes_dwLine env (labelBefore_hex _)]
  exact parseDw_last _ rfl (List.append_nil _).symm hv (by decide)

/-- The line of two numbers. -/
theorem farLine_hex (env : Env) {m n : Nat} (hm : m < 2147483648) (hn : n < 2147483648) :
    lineBytes env
        (dwLine ('0' :: 'x' :: (printHex 4 m ++ ',' :: ' ' :: '0' :: 'x' :: printHex 4 n))) =
      (emit16 m).bytes ++ (emit16 n).bytes := by
  have hfirst := readsValue_numeral env (reads_hex 4 m hm) (.inr rfl)
    (rfl : nextToken (',' :: ' ' :: '0' :: 'x' :: printHex 4 n) = (commaToken, _, 0)) endsExpr_comma
  have hsecond := readsValue_numeral env (reads_hex 4 n hn) (.inl rfl) rfl endsExpr_eol
  generalize htext :
    '0' :: 'x' :: (printHex 4 m ++ ',' :: ' ' :: '0' :: 'x' :: printHex 4 n) = text
  have hlabel : labelBefore ['d', 'w'] (' ' :: text) = none := by
    rw [← htext]
    exact labelBefore_hex _
  obtain ⟨s', hpeek, hptr, hbytes⟩ := @parseDw_cons env { ptr := ' ' :: text } _ _ _
    (text.length + 1) rfl (by rw [← htext]; rfl) hfirst
  have hlast := parseDw_last text.length hpeek (hptr.trans (List.append_nil _).symm) hsecond
    (by decide)
  rw [lineBytes_dwLine env hlabel, hbytes, hlast]

/-- The line of a byte. -/
theorem byteLine_hex (env : Env) {n : Nat} (h : n < 256) :
    lineBytes env ([' ', ' ', ' ', ' ', 'd', 'b', ' ', '0', 'x'] ++ printHex 2 n) = [n] := by
  have hsplit : (splitLine ([' ', ' ', ' ', ' ', 'd', 'b', ' ', '0', 'x'] ++ printHex 2 n)).2 =
      [' ', ' ', ' ', ' ', 'd', 'b', ' ', '0', 'x'] ++ printHex 2 n := rfl
  have htoken : nextToken ([' ', ' ', ' ', ' ', 'd', 'b', ' ', '0', 'x'] ++ printHex 2 n) =
      ({ type := .ident, sval := ['d', 'b'] }, ' ' :: '0' :: 'x' :: printHex 2 n, 0) := rfl
  have hlast := @parseDb_last env { ptr := ' ' :: '0' :: 'x' :: printHex 2 n } _ _
    (('0' :: 'x' :: printHex 2 n).length + 1) rfl rfl (reads_hex 2 n (by omega))
  have hbyte : toByte n = n := by
    simp only [toByte]
    omega
  rw [lineBytes, hsplit, parseStatement_db htoken (by decide)]
  show (parseDb (('0' :: 'x' :: printHex 2 n).length + 1 + 1) env
    { ptr := ' ' :: '0' :: 'x' :: printHex 2 n }).1 = [n]
  rw [hlast, hbyte]

theorem ddLine_bytes (env : Env) (ds : Text) :
    lineBytes env ([' ', ' ', ' ', ' ', 'd', 'd', ' ', '0', 'x'] ++ ds) = [] := rfl

/-! ## Elements -/

/-- The bytes of a line of a data block. -/
def entryBytes (p : LabelProgram) (env : Env) (line : Text) : List Nat :=
  linesBytes env ((dataEntry line).toList.map (emitEntry p))

theorem entryBytes_of {p : LabelProgram} {env : Env} {line : Text} {e : DataEntry}
    (h : dataEntry line = some e) : entryBytes p env line = lineBytes env (emitEntry p e) := by
  rw [entryBytes, h]
  exact List.append_nil _

theorem leBytes_length : ∀ (n : Nat) (v : Int), (leBytes n v).length = n
  | 0, _ => rfl
  | n + 1, v => congrArg (· + 1) (leBytes_length n (v / 256))

theorem leBytes_mod {v w : Int} (h : v % 65536 = w % 65536) : leBytes 2 v = leBytes 2 w := by
  simp only [leBytes, List.cons.injEq, and_true]
  omega

theorem leBytes_far (seg off : Int) :
    leBytes 4 (farValue seg off) = leBytes 2 off ++ leBytes 2 seg := by
  simp only [leBytes, farValue, List.cons_append, List.nil_append, List.cons.injEq, and_true]
  omega

theorem dataEntry_db (ds : Text) : dataEntry ("  db 0x".toList ++ ds) =
    some (.line ([' ', ' ', ' ', ' ', 'd', 'b', ' ', '0', 'x'] ++ ds)) := rfl

theorem dataEntry_dw (ds : Text) : dataEntry ("  dw 0x".toList ++ ds) =
    some (.line (dwLine ('0' :: 'x' :: ds))) := rfl

theorem dataEntry_dd (ds : Text) : dataEntry ("  dd 0x".toList ++ ds) =
    some (.line ([' ', ' ', ' ', ' ', 'd', 'd', ' ', '0', 'x'] ++ ds)) := rfl

theorem dataEntry_far (ds : Text) : dataEntry ("  far 0x".toList ++ ds) =
    some (.line (farEntry ('0' :: 'x' :: ds))) := rfl

theorem dataEntry_near (fn : Text) : dataEntry ("  near.ref ".toList ++ fn) =
    some (.nearRef (Line.readWord 64 fn).1) := rfl

theorem dataEntry_farRef (fn : Text) : dataEntry ("  far.ref ".toList ++ fn) =
    some (.farRef (Line.readWord 64 fn).1) := rfl

/-- A byte of a data block. -/
theorem entryBytes_byte (p : LabelProgram) (env : Env) {n : Nat} (h : n < 256) :
    entryBytes p env ("  db 0x".toList ++ printHex 2 n) = [n] :=
  (entryBytes_of (dataEntry_db _)).trans (byteLine_hex env h)

theorem entryBytes_word (p : LabelProgram) (env : Env) {n : Nat} (h : n < 65536) :
    entryBytes p env ("  dw 0x".toList ++ printHex 4 n) = leBytes 2 n :=
  (entryBytes_of (dataEntry_dw _)).trans (wordLine_hex env (by omega))

theorem entryBytes_dword (p : LabelProgram) (env : Env) (n : Nat) :
    entryBytes p env ("  dd 0x".toList ++ printHex 8 n) = [] :=
  (entryBytes_of (dataEntry_dd _)).trans (ddLine_bytes env _)

/-- A far pointer is printed with its offset first. -/
theorem farEntry_hex {seg off : Nat} (hs : seg < 65536) (ho : off < 65536) :
    farEntry ('0' :: 'x' :: (printHex 4 seg ++ ':' :: '0' :: 'x' :: printHex 4 off)) =
      dwLine ('0' :: 'x' :: (printHex 4 off ++ ',' :: ' ' :: '0' :: 'x' :: printHex 4 seg)) := by
  have hseg := @strtolAuto_hex 4 seg (':' :: '0' :: 'x' :: printHex 4 off) (by
    intro c hc
    cases hc
    decide)
  have hoff := @strtolAuto_hex 4 off [] (by simp)
  rw [List.append_nil] at hoff
  have hclamp : ∀ n : Nat, n < 65536 → (clampLong n % 4294967296).toNat = n := by
    intro n hn
    simp only [clampLong]
    omega
  have htail : (':' :: '0' :: 'x' :: printHex 4 off).tail = '0' :: 'x' :: printHex 4 off := rfl
  unfold farEntry
  simp only [hseg, List.head?_cons, if_true, htail, hoff, hclamp _ hs, hclamp _ ho]
  simp only [dwLine, List.append_assoc]
  rfl

theorem entryBytes_far (p : LabelProgram) (env : Env) {seg off : Nat} (hs : seg < 65536)
    (ho : off < 65536) :
    entryBytes p env ("  far 0x".toList ++ printHex 4 seg ++ [':', '0', 'x'] ++ printHex 4 off) =
      leBytes 2 off ++ leBytes 2 seg := by
  have hline : "  far 0x".toList ++ printHex 4 seg ++ [':', '0', 'x'] ++ printHex 4 off =
      "  far 0x".toList ++ (printHex 4 seg ++ ':' :: '0' :: 'x' :: printHex 4 off) := by
    simp only [List.append_assoc, List.cons_append, List.nil_append]
  have hbytes := farLine_hex env (by omega : off < 2147483648) (by omega : seg < 2147483648)
  rw [hline, entryBytes_of (dataEntry_far _), farEntry_hex hs ho]
  exact hbytes

/-- The name of a reference is read whole. -/
theorem readWord_fn {fn : Text} (h : IsName fn) (hlen : fn.length ≤ 63) :
    (Line.readWord 64 fn).1 = fn := by
  have hword := readWord_prefix 64 [] (isName_ne_nil h) (isName_endsWord h) (by simp)
  rw [List.append_nil] at hword
  rw [hword]
  exact List.take_of_length_le (by omega)

theorem entryBytes_near (p : LabelProgram) (env : Env) {fn : Text} (h : IsName fn)
    (hlen : fn.length ≤ 63) :
    entryBytes p env ("  near.ref ".toList ++ fn) =
      lineBytes env (dwLine (p.resolveFnName fn)) := by
  rw [entryBytes_of (dataEntry_near fn), readWord_fn h hlen]
  rfl

theorem entryBytes_farRef (p : LabelProgram) (env : Env) {fn : Text} (h : IsName fn)
    (hlen : fn.length ≤ 63) :
    entryBytes p env ("  far.ref ".toList ++ fn) =
      lineBytes env (dwLine (farText (p.resolveFnName fn))) := by
  have hline : emitEntry p (.farRef fn) = dwLine (farText (p.resolveFnName fn)) := by
    rw [emitEntry, dwLine, farText, List.append_assoc, List.append_assoc, List.append_assoc]
  rw [entryBytes_of (dataEntry_farRef fn), readWord_fn h hlen, hline]

/-- A function that an initializer refers to: the compiler knows it by a name of at most 63
characters, and its label is a name. -/
structure KnownFn (p : LabelProgram) (fn : Text) : Prop where
  name : IsName fn
  short : fn.length ≤ 63
  label : IsName (p.resolveFnName fn)

/-- The functions of an element. -/
def elemFns : InitElem → List Text
  | .near fn => [fn]
  | .far fn => [fn]
  | _ => []

/-- **The bytes of an element**: its value when the line has the size of the element, fewer than
that otherwise. -/
theorem elemLine_bytes (p : LabelProgram) (env : Env) {e : Ty} {size : Int} {i : InitElem}
    {line : Text} (hpos : 0 < size) (hfar : e = .far → size = 4)
    (hfns : ∀ fn ∈ elemFns i, KnownFn p fn)
    (hline : elemLine e size i = some line) :
    (ElemFits p size i → entryBytes p env line = leBytes size.toNat (elemValue p env i)) ∧
      (¬ElemFits p size i → (entryBytes p env line).length < size.toNat) := by
  cases i with
  | int val =>
    simp only [elemLine] at hline
    by_cases h1 : size = 1
    · rw [if_pos h1] at hline
      cases hline
      refine ⟨fun _ => ?_, fun h => absurd (.inl h1) h⟩
      rw [entryBytes_byte p env (by omega), h1]
      rfl
    · rw [if_neg h1] at hline
      by_cases h4 : size = 4
      · rw [if_pos h4] at hline
        cases hline
        -- a far element with a plain number has no form in the assembler
        rw [entryBytes_dword, h4]
        have hnot : ¬ElemFits p 4 (.int val) := by
          rintro (h | h) <;> cases h
        exact ⟨fun h => absurd h hnot, fun _ => by decide⟩
      · rw [if_neg h4] at hline
        cases hline
        rw [entryBytes_word p env (by omega)]
        constructor
        · rintro (h | h)
          · exact absurd h h1
          · rw [h]
            exact leBytes_mod (by simp only [elemValue]; omega)
        · intro h
          rw [leBytes_length]
          have h2 : size ≠ 2 := fun h2 => h (.inr h2)
          omega
  | near fn =>
    obtain ⟨hname, hshort, hlabel⟩ := hfns fn List.mem_cons_self
    simp only [elemLine] at hline
    by_cases h2 : size = 2
    · rw [if_pos h2] at hline
      cases hline
      rw [entryBytes_near p env hname hshort, h2]
      constructor
      · intro hword
        rw [nearLine_bytes env hlabel hword]
        rfl
      · intro hword
        have hlong := wordLine_bytes env hlabel (by simpa [ElemFits] using hword)
          (.inl rfl : EndsName [])
        rw [List.append_nil] at hlong
        rw [hlong]
        decide
    · rw [if_neg h2] at hline
      cases hline
  | far fn =>
    obtain ⟨hname, hshort, hlabel⟩ := hfns fn List.mem_cons_self
    simp only [elemLine] at hline
    by_cases hf : e = .far
    · rw [if_pos hf] at hline
      cases hline
      rw [entryBytes_farRef p env hname hshort, hfar hf]
      constructor
      · rintro ⟨hword, hlen⟩
        have hcut : fnLabel p fn = p.resolveFnName fn := List.take_of_length_le hlen
        rw [farLine_bytes env hlabel hword hlen, elemValue, hcut]
        exact (leBytes_far _ _).symm
      · intro hnot
        by_cases hword : isDataWord (p.resolveFnName fn) = false
        · have hlen : 126 < (p.resolveFnName fn).length := by
            by_contra hle
            exact hnot ⟨hword, by omega⟩
          rw [farLine_long env hlabel hword hlen]
          decide
        · have htext : farText (p.resolveFnName fn) = p.resolveFnName fn ++
              (',' :: ' ' :: (['S', 'E', 'G', ' '] ++ p.resolveFnName fn)) := by
            rw [farText, List.append_assoc]
            rfl
          rw [htext, wordLine_bytes env hlabel (by simpa using hword) (.inr rfl)]
          decide
    · rw [if_neg hf] at hline
      cases hline
  | farLit seg off =>
    simp only [elemLine] at hline
    by_cases hf : e = .far
    · rw [if_pos hf] at hline
      cases hline
      refine ⟨fun _ => ?_, fun h => absurd trivial h⟩
      rw [entryBytes_far p env (by omega) (by omega), hfar hf]
      have hle := leBytes_far seg off
      rw [elemValue]
      show _ = leBytes 4 (farValue seg off)
      rw [hle]
      congr 1 <;> exact leBytes_mod (by omega)
    · rw [if_neg hf] at hline
      cases hline

/-- A line that fills an element. -/
theorem fillLine_bytes (p : LabelProgram) (env : Env) {e : Ty} {size : Int} (hpos : 0 < size)
    (hfar : e = .far → size = 4) :
    (FillFits e size → entryBytes p env (fillLine e size) = List.replicate size.toNat 0) ∧
      (¬FillFits e size → (entryBytes p env (fillLine e size)).length < size.toNat) := by
  have hfarLine : "  far 0x0000:0x0000".toList =
      "  far 0x".toList ++ printHex 4 0 ++ [':', '0', 'x'] ++ printHex 4 0 := by decide
  have hbyteLine : "  db 0x00".toList = "  db 0x".toList ++ printHex 2 0 := by decide
  have hwordLine : "  dw 0x0000".toList = "  dw 0x".toList ++ printHex 4 0 := by decide
  unfold fillLine FillFits
  by_cases hf : e = .far
  · rw [if_pos hf, hfar hf, hfarLine, entryBytes_far p env (by decide) (by decide)]
    exact ⟨fun _ => rfl, fun h => absurd (.inl hf) h⟩
  · rw [if_neg hf]
    by_cases h1 : size = 1
    · rw [if_pos h1, h1, hbyteLine, entryBytes_byte p env (by decide)]
      exact ⟨fun _ => rfl, fun h => absurd (.inr (.inl rfl)) h⟩
    · rw [if_neg h1, hwordLine, entryBytes_word p env (by decide), leBytes_length]
      constructor
      · rintro (h | h | h)
        · exact absurd h hf
        · exact absurd h h1
        · rw [h]
          rfl
      · intro h
        have h2 : size ≠ 2 := fun h2 => h (.inr (.inr h2))
        omega

/-! ## Data blocks -/

theorem linesBytes_filterMap (p : LabelProgram) (env : Env) : ∀ entries : List Text,
    linesBytes env ((entries.filterMap dataEntry).map (emitEntry p)) =
      entries.flatMap (entryBytes p env)
  | [] => rfl
  | line :: entries => by
    have ih := linesBytes_filterMap p env entries
    rw [List.flatMap_cons, ← ih, entryBytes]
    cases h : dataEntry line with
    | none =>
      rw [List.filterMap_cons_none h]
      rfl
    | some e =>
      rw [List.filterMap_cons_some h, List.map_cons, linesBytes, List.flatMap_cons]
      exact congrArg (· ++ _) (List.append_nil _).symm

/-- The bytes of a block are those of its lines. -/
theorem emitData_bytes (p : LabelProgram) (env : Env) {name : Text} (h : IsName name) (t : Ty)
    (at? : Option (Nat × Nat)) (entries : List Text) :
    linesBytes env (emitData p (parseData (dataLine name t at?) entries)) =
      entries.flatMap (entryBytes p env) := by
  have hline : dataLine name t at? = name ++ ',' :: ' ' :: (typeText t ++ atText at?) := by
    rw [dataLine, List.append_assoc, List.append_assoc]
    rfl
  have hcomma : ',' ∉ name.take 63 := fun hc =>
    absurd (isName_endsWord h ',' (List.mem_of_mem_take hc)) (by decide)
  have hread := readWord_prefix 64 (',' :: ' ' :: (typeText t ++ atText at?)) (isName_ne_nil h)
    (isName_endsWord h) (by
      intro c hc
      cases hc
      rfl)
  have hlabel : (parseData (dataLine name t at?) entries).label = name.take 63 := by
    rw [hline]
    simp only [parseData, hread]
    exact stripComma_of_notMem hcomma
  have hlen : (name.take 63).length < 64 := by
    rw [List.length_take]
    omega
  have hfirst : lineBytes env (name.take 63 ++ [':']) = [] :=
    congrArg (fun r => statementBytes (parseStatement env { ptr := r }).1)
      (splitLine_label (isName_take (by decide) h) hlen rfl)
  rw [emitData, hlabel, linesBytes, List.flatMap_cons, hfirst, List.nil_append]
  exact linesBytes_filterMap p env entries

/-! ## Arrays -/

/-- Every value of an array without a size of its own is a word. -/
theorem elemLine_nonpos (p : LabelProgram) (env : Env) {e : Ty} {size : Int} {i : InitElem}
    {line : Text} (hsize : size ≤ 0) (hfar : e = .far → size = 4)
    (hline : elemLine e size i = some line) :
    ¬ElemFits p size i ∧ (entryBytes p env line).length = 2 := by
  have hnot : e ≠ .far := fun hf => by
    have := hfar hf
    omega
  cases i with
  | int val =>
    rw [elemLine, if_neg (by omega), if_neg (by omega)] at hline
    cases hline
    rw [entryBytes_word p env (by omega), leBytes_length]
    refine ⟨?_, rfl⟩
    rintro (h | h) <;> omega
  | near fn =>
    rw [elemLine, if_neg (by omega)] at hline
    cases hline
  | far fn =>
    rw [elemLine, if_neg hnot] at hline
    cases hline
  | farLit seg off =>
    rw [elemLine, if_neg hnot] at hline
    cases hline

theorem fillLine_nonpos (p : LabelProgram) (env : Env) {e : Ty} {size : Int} (hsize : size ≤ 0)
    (hfar : e = .far → size = 4) :
    ¬FillFits e size ∧ (entryBytes p env (fillLine e size)).length = 2 := by
  have hnot : e ≠ .far := fun hf => by
    have := hfar hf
    omega
  have hwordLine : "  dw 0x0000".toList = "  dw 0x".toList ++ printHex 4 0 := by decide
  rw [fillLine, if_neg hnot, if_neg (by omega), hwordLine, entryBytes_word p env (by decide),
    leBytes_length]
  refine ⟨?_, rfl⟩
  rintro (h | h | h)
  · exact hnot h
  · omega
  · omega

/-- The bytes of a list of lines, each of which has at most a given size. -/
theorem flatMap_length_le {α β : Type} {f : α → List β} {s : Nat} : ∀ {xs : List α},
    (∀ x ∈ xs, (f x).length ≤ s) → (xs.flatMap f).length ≤ xs.length * s
  | [], _ => Nat.zero_le _
  | x :: xs, h => by
    have ih := flatMap_length_le fun y hy => h y (List.mem_cons_of_mem x hy)
    have hx := h x List.mem_cons_self
    rw [List.flatMap_cons, List.length_append, List.length_cons, Nat.succ_mul]
    omega

theorem flatMap_length_lt {α β : Type} {f : α → List β} {s : Nat} : ∀ {xs : List α},
    (∀ x ∈ xs, (f x).length ≤ s) → (∃ x ∈ xs, (f x).length < s) →
    (xs.flatMap f).length < xs.length * s
  | [], _, ⟨_, hx, _⟩ => by cases hx
  | x :: xs, h, ⟨y, hy, hlt⟩ => by
    have htail : ∀ z ∈ xs, (f z).length ≤ s := fun z hz => h z (List.mem_cons_of_mem x hz)
    rw [List.flatMap_cons, List.length_append, List.length_cons, Nat.succ_mul]
    rcases List.mem_cons.mp hy with rfl | hy
    · have := flatMap_length_le htail
      omega
    · have := flatMap_length_lt htail ⟨y, hy, hlt⟩
      have hx := h x List.mem_cons_self
      omega

theorem flatMap_length_eq {α β : Type} {f : α → List β} {s : Nat} : ∀ {xs : List α},
    (∀ x ∈ xs, (f x).length = s) → (xs.flatMap f).length = xs.length * s
  | [], _ => (Nat.zero_mul s).symm
  | x :: xs, h => by
    have ih := flatMap_length_eq fun y hy => h y (List.mem_cons_of_mem x hy)
    rw [List.flatMap_cons, List.length_append, List.length_cons, Nat.succ_mul, ih,
      h x List.mem_cons_self, Nat.add_comm]

/-- The lines of the elements that are accepted. -/
theorem mapM_some {α β : Type} {f : α → Option (List β)} : ∀ {xs : List α} {ys : List (List β)},
    xs.mapM f = some ys →
    ys = xs.map (fun x => (f x).getD []) ∧ ∀ x ∈ xs, f x = some ((f x).getD [])
  | [], _, h => by
    cases h
    exact ⟨rfl, fun x hx => by cases hx⟩
  | x :: xs, ys, h => by
    rw [List.mapM_cons] at h
    cases hx : f x with
    | none =>
      rw [hx] at h
      cases h
    | some y =>
      cases hxs : xs.mapM f with
      | none =>
        rw [hx, hxs] at h
        cases h
      | some zs =>
        rw [hx, hxs] at h
        cases h
        obtain ⟨hmap, hall⟩ := mapM_some hxs
        refine ⟨by rw [List.map_cons, hx, hmap]; rfl, fun z hz => ?_⟩
        rcases List.mem_cons.mp hz with rfl | hz
        · rw [hx]
          rfl
        · exact hall z hz

theorem flatMap_congr_mem {α β : Type} {f g : α → List β} : ∀ {xs : List α},
    (∀ x ∈ xs, f x = g x) → xs.flatMap f = xs.flatMap g
  | [], _ => rfl
  | x :: xs, h => by
    rw [List.flatMap_cons, List.flatMap_cons, h x List.mem_cons_self,
      flatMap_congr_mem fun y hy => h y (List.mem_cons_of_mem x hy)]

section

variable {p : LabelProgram} {env : Env} {e : Ty} {n : Int} {es : List InitElem}

/-- The bytes of the line of an element. -/
def elemBytes (p : LabelProgram) (env : Env) (e : Ty) (size : Int) (i : InitElem) : List Nat :=
  entryBytes p env ((elemLine e size i).getD [])

/-- The bytes of the lines that fill an array. -/
def fillBytes (p : LabelProgram) (env : Env) (e : Ty) (size : Int) (m : Nat) : List Nat :=
  (List.replicate m (fillLine e size)).flatMap (entryBytes p env)

theorem fillBytes_length (size : Int) (m : Nat) :
    (fillBytes p env e size m).length = m * (entryBytes p env (fillLine e size)).length := by
  rw [fillBytes, flatMap_length_eq fun x hx => by rw [List.eq_of_mem_replicate hx],
    List.length_replicate]

/-- No line of an array has more than the size of an element, and all of them have it when the bytes
are as many as the array has. -/
theorem fits_of_length {k m : Nat} (hpos : 0 < (k : Int)) (hfar : e = .far → (k : Int) = 4)
    (hfns : ∀ i ∈ es, ∀ fn ∈ elemFns i, KnownFn p fn)
    (hall : ∀ i ∈ es, elemLine e k i = some ((elemLine e k i).getD []))
    (hlen : (es.flatMap (elemBytes p env e k)).length + (fillBytes p env e k m).length =
      es.length * k + m * k) :
    (∀ i ∈ es, ElemFits p k i) ∧ (m = 0 ∨ FillFits e k) := by
  have hless : ∀ i ∈ es, ¬ElemFits p k i → (elemBytes p env e k i).length < k := fun i hi =>
    (elemLine_bytes p env hpos hfar (hfns i hi) (hall i hi)).2
  have hle : ∀ i ∈ es, (elemBytes p env e k i).length ≤ k := by
    intro i hi
    by_cases hf : ElemFits p k i
    · have hfit := (elemLine_bytes p env hpos hfar (hfns i hi) (hall i hi)).1 hf
      rw [elemBytes, hfit, leBytes_length]
      exact Nat.le_refl k
    · exact Nat.le_of_lt (hless i hi hf)
  obtain ⟨hzeros, hshort⟩ := fillLine_bytes p env hpos hfar
  have hfillLe : (entryBytes p env (fillLine e k)).length ≤ k := by
    by_cases hf : FillFits e k
    · rw [hzeros hf, List.length_replicate]
      exact Nat.le_refl k
    · exact Nat.le_of_lt (hshort hf)
  have hsum := flatMap_length_le hle
  have hfill := Nat.mul_le_mul_left m hfillLe
  rw [fillBytes_length] at hlen
  refine ⟨fun i hi => ?_, ?_⟩
  · by_contra hf
    have := flatMap_length_lt hle ⟨i, hi, hless i hi hf⟩
    omega
  · by_contra hboth
    obtain ⟨hne, hf⟩ := not_or.mp hboth
    have hlt := Nat.mul_lt_mul_of_pos_left (hshort hf) (Nat.pos_of_ne_zero hne)
    simp only [Int.toNat_natCast] at hlt
    omega

/-- The bytes of an array whose lines all have the size of an element. -/
theorem bytes_of_fits {k m : Nat} (hpos : 0 < (k : Int)) (hfar : e = .far → (k : Int) = 4)
    (hfns : ∀ i ∈ es, ∀ fn ∈ elemFns i, KnownFn p fn)
    (hall : ∀ i ∈ es, elemLine e k i = some ((elemLine e k i).getD []))
    (hes : ∀ i ∈ es, ElemFits p k i) (hfits : m = 0 ∨ FillFits e k) :
    es.flatMap (elemBytes p env e k) = (es.flatMap fun i => leBytes k (elemValue p env i)) ∧
      fillBytes p env e k m = List.replicate (m * k) 0 := by
  refine ⟨flatMap_congr_mem fun i hi => ?_, ?_⟩
  · exact (elemLine_bytes p env hpos hfar (hfns i hi) (hall i hi)).1 (hes i hi)
  · rw [fillBytes, List.flatMap_replicate]
    rcases hfits with rfl | hf
    · rw [Nat.zero_mul]
      rfl
    · rw [(fillLine_bytes p env hpos hfar).1 hf, List.flatten_replicate_replicate]
      rfl

/-- Elements without a size are words. -/
theorem nonpos_length {s : Int} {m : Nat} (hneg : s ≤ 0) (hfar : e = .far → s = 4)
    (hall : ∀ i ∈ es, elemLine e s i = some ((elemLine e s i).getD [])) :
    (es.flatMap (elemBytes p env e s)).length + (fillBytes p env e s m).length =
      (es.length + m) * 2 := by
  have htwo : (es.flatMap (elemBytes p env e s)).length = es.length * 2 :=
    flatMap_length_eq fun i hi => (elemLine_nonpos p env hneg hfar (hall i hi)).2
  rw [htwo, fillBytes_length, (fillLine_nonpos p env hneg hfar).2, Nat.add_mul]

/-- **The bytes of an array** are its values and zeros when the lines of all its elements have the
size of an element. -/
theorem array_bytes (c : Compiler) {lines : List Text}
    (hfns : ∀ i ∈ es, ∀ fn ∈ elemFns i, KnownFn p fn)
    (hlines : es.mapM (elemLine e (typeSize c e)) = some lines) (hn : (es.length : Int) ≤ n) :
    InitialisedTo (typeSize c (.array e n))
        (es.flatMap fun i => leBytes (typeSize c e).toNat (elemValue p env i))
        ((lines ++ List.replicate (n - es.length).toNat (fillLine e (typeSize c e))).flatMap
          (entryBytes p env)) ↔
      n = 0 ∨ (∀ i ∈ es, ElemFits p (typeSize c e) i) ∧
        (n = es.length ∨ FillFits e (typeSize c e)) := by
  obtain ⟨hmap, hall⟩ := mapM_some hlines
  have hsize : typeSize c (.array e n) = typeSize c e * n := rfl
  have hfar : e = .far → typeSize c e = 4 := by
    rintro rfl
    rfl
  generalize hs : typeSize c e = s at *
  obtain ⟨m, hm⟩ : ∃ m : Nat, n = es.length + m := ⟨(n - es.length).toNat, by omega⟩
  have hfillCount : (n - es.length).toNat = m := by omega
  have hbytes : (lines ++ List.replicate m (fillLine e s)).flatMap (entryBytes p env) =
      es.flatMap (elemBytes p env e s) ++ fillBytes p env e s m := by
    rw [List.flatMap_append, hmap, List.flatMap_map]
    rfl
  rw [hfillCount, hbytes, hsize]
  unfold InitialisedTo
  rw [List.length_append]
  rcases Int.lt_or_le 0 s with hpos | hneg
  · obtain ⟨k, rfl⟩ := Int.eq_ofNat_of_zero_le (Int.le_of_lt hpos)
    have htotal : (k : Int) * n = (es.length * k + m * k : Nat) := by
      rw [hm, ← Nat.add_mul, Int.mul_comm, Int.natCast_mul, Int.natCast_add]
    constructor
    · rintro ⟨hlen, -⟩
      have hsum : (es.flatMap (elemBytes p env e k)).length + (fillBytes p env e k m).length =
          es.length * k + m * k := by omega
      obtain ⟨hes, hfits⟩ := fits_of_length hpos hfar hfns hall hsum
      exact .inr ⟨hes, hfits.imp_left fun h => by omega⟩
    · intro hcond
      have hboth : (∀ i ∈ es, ElemFits p k i) ∧ (m = 0 ∨ FillFits e k) := by
        rcases hcond with rfl | ⟨hes, hfits⟩
        · have hnil : es = [] := List.length_eq_zero_iff.mp (by omega)
          subst hnil
          exact ⟨fun i hi => (by cases hi), .inl (by omega)⟩
        · exact ⟨hes, hfits.imp_left fun h => by omega⟩
      obtain ⟨hvalues, hrest⟩ := @bytes_of_fits p env e es k m hpos hfar hfns hall hboth.1 hboth.2
      refine ⟨?_, m * k, by rw [hvalues, hrest]; rfl⟩
      rw [htotal, hvalues, hrest, List.length_replicate,
        flatMap_length_eq fun i _ => leBytes_length k _]
  · have hlength := @nonpos_length p env e es s m hneg hfar hall
    have hlow : s * n ≤ 0 := Int.mul_nonpos_of_nonpos_of_nonneg hneg (by omega)
    have hempty : n = 0 → (((es.flatMap (elemBytes p env e s)).length +
        (fillBytes p env e s m).length : Nat) : Int) = s * n ∧
        ∃ j, es.flatMap (elemBytes p env e s) ++ fillBytes p env e s m =
          (es.flatMap fun i => leBytes s.toNat (elemValue p env i)) ++ List.replicate j 0 := by
      intro hzero
      have hnil : es = [] := List.length_eq_zero_iff.mp (by omega)
      have hm0 : m = 0 := by omega
      subst hnil
      rw [hzero, hm0]
      exact ⟨(Int.mul_zero s).symm, 0, rfl⟩
    constructor
    · rintro ⟨hlen, -⟩
      exact .inl (by omega)
    · rintro (hzero | ⟨hes, hfits⟩)
      · exact hempty hzero
      · have hnil : es = [] := List.eq_nil_iff_forall_not_mem.mpr fun i hi =>
          (elemLine_nonpos p env hneg hfar (hall i hi)).1 (hes i hi)
        have hcount := hfits.resolve_right (fillLine_nonpos p env hneg hfar).1
        rw [hnil] at hcount
        exact hempty hcount

end

/-! ## Strings -/

theorem escape_letter (e : Escape) : 0 < e.letter := by
  cases e <;> decide

theorem isXDigit_pos {c : Char} (h : isXDigit c = true) : 0 < c.toNat := by
  simp only [isXDigit, Char.isDigit, Bool.or_eq_true, Bool.and_eq_true, decide_eq_true_eq,
    Char.le_def, UInt32.le_iff_toNat_le] at h
  have hval : c.toNat = c.val.toNat := rfl
  have ha : ('a' : Char).val.toNat = 97 := rfl
  have hA : ('A' : Char).val.toNat = 65 := rfl
  have hzero : ('0' : Char).val.toNat = 48 := rfl
  omega

/-- There is no NUL between the quotes. -/
theorem rawText_pos (lit : List LitChar) : ∀ b ∈ rawText lit, 0 < b := by
  intro b hb
  obtain ⟨c, -, hb⟩ := List.mem_flatMap.mp hb
  cases c with
  | plain d h =>
    rw [List.mem_singleton.mp hb]
    exact h.1
  | escape e =>
    rcases List.mem_cons.mp hb with rfl | hb
    · decide
    · rw [List.mem_singleton.mp hb]
      exact escape_letter e
  | hex x y h =>
    simp only [LitChar.raw, List.mem_cons, List.not_mem_nil, or_false] at hb
    rcases hb with rfl | rfl | rfl | rfl
    · decide
    · decide
    · exact isXDigit_pos h.1
    · exact isXDigit_pos h.2

/-- The source of a literal is longer than what it means, unless they are the same. -/
theorem rawText_length : ∀ lit : List LitChar,
    (decoded lit).length ≤ (rawText lit).length ∧
      ((rawText lit).length ≤ (decoded lit).length → ∀ c ∈ lit, c.isPlain = true)
  | [] => ⟨Nat.le_refl 0, fun _ c hc => by cases hc⟩
  | c :: lit => by
    obtain ⟨hle, hplain⟩ := rawText_length lit
    have hraw : (rawText (c :: lit)).length = c.raw.length + (rawText lit).length := by
      rw [rawText, List.flatMap_cons, List.length_append]
      rfl
    have hdec : (decoded (c :: lit)).length = (decoded lit).length + 1 := rfl
    have hone : 1 ≤ c.raw.length ∧ (c.raw.length = 1 → c.isPlain = true) := by
      cases c with
      | plain b h => exact ⟨Nat.le_refl 1, fun _ => rfl⟩
      | escape e => exact ⟨(by decide : 1 ≤ 2), fun h => by cases h⟩
      | hex x y h => exact ⟨(by decide : 1 ≤ 4), fun h => by cases h⟩
    refine ⟨by omega, fun h d hd => ?_⟩
    rcases List.mem_cons.mp hd with rfl | hd
    · exact hone.2 (by omega)
    · exact hplain (by omega) d hd

/-- **The bytes of a string** are its characters and zeros when it has no escape sequence and its
elements are bytes. -/
theorem string_bytes (c : Compiler) (p : LabelProgram) (env : Env) {e : Ty} {n : Int}
    {lit : List LitChar} (hn : ((rawText lit).length : Int) ≤ n) :
    InitialisedTo (typeSize c (.array e n))
        ((decoded lit).flatMap fun b => leBytes (typeSize c e).toNat (Int.ofNat b))
        ((((rawText lit).map fun b => "  db 0x".toList ++ printHex 2 b) ++
          List.replicate (n - (rawText lit).length).toNat "  db 0x00".toList).flatMap
            (entryBytes p env)) ↔
      n = 0 ∨ typeSize c e = 1 ∧ ∀ ch ∈ lit, ch.isPlain = true := by
  have hsize : typeSize c (.array e n) = typeSize c e * n := rfl
  have hbyteLine : "  db 0x00".toList = "  db 0x".toList ++ printHex 2 0 := by decide
  obtain ⟨m, hm⟩ : ∃ m : Nat, n = (rawText lit).length + m :=
    ⟨(n - (rawText lit).length).toNat, by omega⟩
  have hfillCount : (n - (rawText lit).length).toNat = m := by omega
  have hraw : ((rawText lit).map fun b => "  db 0x".toList ++ printHex 2 b).flatMap
      (entryBytes p env) = rawText lit := by
    rw [List.flatMap_map, flatMap_congr_mem fun b hb =>
      entryBytes_byte p env (rawText_lt lit b hb), List.flatMap_singleton']
  have hfill : (List.replicate m "  db 0x00".toList).flatMap (entryBytes p env) =
      List.replicate m 0 := by
    rw [List.flatMap_replicate, hbyteLine, entryBytes_byte p env (by decide)]
    exact (List.flatten_replicate_replicate (m := 1)).trans (by rw [Nat.mul_one])
  rw [hfillCount, List.flatMap_append, hraw, hfill, hsize]
  unfold InitialisedTo
  rw [List.length_append, List.length_replicate]
  obtain ⟨hlong, hplain⟩ := rawText_length lit
  constructor
  · rintro ⟨hlen, k, hk⟩
    by_cases hzero : n = 0
    · exact .inl hzero
    have hone : typeSize c e = 1 := by
      have hcancel : typeSize c e * n = 1 * n := by omega
      exact Int.eq_of_mul_eq_mul_right hzero hcancel
    refine .inr ⟨hone, hplain ?_⟩
    by_contra hlt
    have hvalues :
        ((decoded lit).flatMap fun b => leBytes (typeSize c e).toNat (Int.ofNat b)).length =
          (decoded lit).length := by
      rw [flatMap_length_eq fun b _ => leBytes_length _ _, hone]
      exact Nat.mul_one _
    have hdrop := congrArg (List.drop (decoded lit).length) hk
    rw [List.drop_append_of_le_length hlong, List.drop_left' hvalues] at hdrop
    obtain ⟨b, bs, hb⟩ : ∃ b bs, (rawText lit).drop (decoded lit).length = b :: bs :=
      List.exists_cons_of_ne_nil (List.drop_eq_nil_iff.not.mpr (by omega))
    have hpos := rawText_pos lit b (List.mem_of_mem_drop (hb ▸ List.mem_cons_self))
    have hmem : b ∈ List.replicate k 0 := by
      rw [← hdrop, hb]
      exact List.mem_cons_self
    have := List.eq_of_mem_replicate hmem
    omega
  · rintro (hzero | ⟨hone, hall⟩)
    · have hnil : rawText lit = [] := List.length_eq_zero_iff.mp (by omega)
      have hdec : decoded lit = [] := List.length_eq_zero_iff.mp (by omega)
      have hm0 : m = 0 := by omega
      rw [hnil, hdec, hzero, hm0]
      exact ⟨(Int.mul_zero _).symm, 0, rfl⟩
    · have hvalues : ((decoded lit).flatMap fun b => leBytes (typeSize c e).toNat (Int.ofNat b)) =
          decoded lit := by
        rw [hone, flatMap_congr_mem (g := fun b => [b]), List.flatMap_singleton']
        intro b hb
        have hlt := rawText_lt lit b (by rw [rawText_of_plain hall]; exact hb)
        have hbyte : (Int.ofNat b % 256).toNat = b := by
          simp only [Int.ofNat_eq_natCast]
          omega
        exact congrArg (· :: []) hbyte
      refine ⟨by rw [hone, hm]; omega, m, ?_⟩
      rw [hvalues, rawText_of_plain hall]

/-! ## Values that are dropped -/

theorem zeroLines_zero (env : Env) (size : Int) : ∀ b ∈ linesBytes env (zeroLines size), b = 0 := by
  intro b hb
  rw [zeroLines, linesBytes_append] at hb
  rcases List.mem_append.mp hb with hb | hb
  · obtain ⟨line, hline, hb⟩ := List.mem_flatMap.mp hb
    rw [List.eq_of_mem_replicate hline, lineBytes_dwZero] at hb
    exact List.eq_of_mem_replicate (n := 2) hb
  · obtain ⟨line, hline, hb⟩ := List.mem_flatMap.mp hb
    split at hline
    · rw [List.mem_singleton.mp hline, lineBytes_dbZero] at hb
      exact List.mem_singleton.mp hb
    · cases hline

/-- A global has zeros only. -/
theorem emitGlobal_zero (env : Env) {g : GlobalVar} (hname : IsName g.name)
    (hlen : g.name.length < 64) : ∀ b ∈ linesBytes env (emitGlobal g), b = 0 := by
  have hlabel : ∀ rest, startsWithWord "equ" (skipWs rest) = false →
      lineBytes env (g.name ++ ':' :: rest) =
        statementBytes (parseStatement env { ptr := rest }).1 := fun rest hequ =>
    congrArg (fun r => statementBytes (parseStatement env { ptr := r }).1)
      (splitLine_label hname hlen hequ)
  intro b hb
  unfold emitGlobal at hb
  split at hb
  · rw [linesBytes, List.flatMap_singleton, hlabel dbZero rfl] at hb
    exact List.eq_of_mem_replicate (n := 1) hb
  · split at hb
    · rw [linesBytes, List.flatMap_singleton, hlabel dwZero rfl] at hb
      exact List.eq_of_mem_replicate (n := 2) hb
    · have hfirst : lineBytes env (g.name ++ [':']) = [] := hlabel [] rfl
      rw [linesBytes, List.flatMap_cons, hfirst, List.nil_append] at hb
      exact zeroLines_zero env g.size b hb

/-- Zeros are the values exactly when these are zeros, and not too many. -/
theorem initialisedTo_zeros {size : Int} {values bytes : List Nat} (h : ∀ b ∈ bytes, b = 0) :
    InitialisedTo size values bytes ↔
      (bytes.length : Int) = size ∧ (∀ b ∈ values, b = 0) ∧ (values.length : Int) ≤ size := by
  constructor
  · rintro ⟨hlen, k, rfl⟩
    refine ⟨hlen, fun b hb => h b (List.mem_append_left _ hb), ?_⟩
    rw [List.length_append] at hlen
    omega
  · rintro ⟨hlen, hvalues, hle⟩
    have hbytes : bytes = List.replicate bytes.length 0 := List.eq_replicate_iff.mpr ⟨rfl, h⟩
    have hzeros : values = List.replicate values.length 0 :=
      List.eq_replicate_iff.mpr ⟨rfl, hvalues⟩
    refine ⟨hlen, bytes.length - values.length, ?_⟩
    rw [hzeros, List.length_replicate, List.replicate_append_replicate,
      Nat.add_sub_cancel' (by omega)]
    exact hbytes

/-- The zeros of a declaration whose initializer is dropped. -/
theorem dropped_bytes (c : Compiler) (p : LabelProgram) (env : Env) {name : Text}
    (hname : IsName name) {t : Ty} (ht : TySound t) (at? : Option (Nat × Nat))
    (values : List Nat) :
    InitialisedTo (typeSize c t) values
        (linesBytes env (declLines p (.global (globalLine name t at? true)))) ↔
      Reserves c name t ∧ (∀ b ∈ values, b = 0) ∧ (values.length : Int) ≤ typeSize c t := by
  obtain ⟨hread, -⟩ := parseGlobal_line hname ht at? true
  have hcut : IsName (name.take 63) := isName_take (by decide) hname
  have hlen : (name.take 63).length < 64 := by
    rw [List.length_take]
    omega
  have hzero := @emitGlobal_zero env (parseGlobal (globalLine name t at? true)) (hread ▸ hcut)
    (hread ▸ hlen)
  have hreserves := reserves_iff c env hname ht at? true
  exact (initialisedTo_zeros hzero).trans (and_congr hreserves Iff.rfl)

/-! ## Declarations -/

/-- **The values of a declaration are in the image** exactly when it is an array of bytes or words
and its functions have labels that the assembler takes for labels, or its values are zero anyway. -/
theorem data_faithful (c : Compiler) (p : LabelProgram) (env : Env) {name : Text}
    (hname : IsName name) {t : Ty} {init : SourceInit} {at? : Option (Nat × Nat)}
    {decl : GlobalDecl} (ht : TySound (sizedType t init.toExpr))
    (hfns : ∀ fn ∈ init.fns, KnownFn p fn)
    (hok : compileGlobal c name t init.toExpr at? = some decl) :
    InitialisedTo (typeSize c (sizedType t init.toExpr))
        (initValues c p env (sizedType t init.toExpr) init) (linesBytes env (declLines p decl)) ↔
      Faithful c p env name t init := by
  cases init with
  | scalar i =>
    have hdecl : decl = .global (globalLine name (sizedType t (.scalar i)) at? true) :=
      (Option.some.inj hok).symm
    rw [hdecl]
    exact dropped_bytes c p env hname ht at? _
  | array es =>
    unfold Faithful
    simp only [compileGlobal, SourceInit.toExpr] at hok ⊢
    cases hsized : sizedType t (.array es) with
    | array e n =>
      simp only [hsized] at hok ⊢
      by_cases hlen : (es.length : Int) > n
      · rw [if_pos hlen] at hok
        cases hok
      rw [if_neg hlen] at hok
      obtain ⟨lines, hlines, hdecl⟩ := Option.bind_eq_some_iff.mp hok
      cases hdecl
      have hknown : ∀ i ∈ es, ∀ fn ∈ elemFns i, KnownFn p fn := by
        intro i hi fn hfn
        refine hfns fn (List.mem_filterMap.mpr ⟨i, hi, ?_⟩)
        cases i <;> simp only [elemFns, List.mem_singleton, List.not_mem_nil] at hfn <;>
          rw [hfn]
      have hbytes := emitData_bytes p env hname (.array e n) at?
        (lines ++ List.replicate (n - es.length).toNat (fillLine e (typeSize c e)))
      have harray := @array_bytes p env e n es c lines hknown hlines (by omega)
      rw [← hbytes] at harray
      exact harray
    | _ =>
      simp only [hsized] at hok
      cases hok
  | string lit =>
    unfold Faithful
    simp only [compileGlobal, SourceInit.toExpr] at hok ht ⊢
    cases hsized : sizedType t (.string (rawText lit)) with
    | array e n =>
      simp only [hsized] at hok ⊢
      by_cases hlen : ((rawText lit).length : Int) > n
      · rw [if_pos hlen] at hok
        cases hok
      rw [if_neg hlen] at hok
      cases hok
      have hbytes := emitData_bytes p env hname (.array e n) at?
        (((rawText lit).map fun b => "  db 0x".toList ++ printHex 2 b) ++
          List.replicate (n - (rawText lit).length).toNat "  db 0x00".toList)
      have hstring := @string_bytes c p env e n lit (by omega)
      rw [← hbytes] at hstring
      exact hstring
    | _ =>
      rw [hsized] at ht
      simp only [hsized] at hok ⊢
      cases hok
      exact dropped_bytes c p env hname ht at? _

/-- The words 1 and 2 in an array of three. -/
theorem data_faithful_words :
    InitialisedTo 6 [1, 0, 2, 0]
      (linesBytes { labels := [], pass2 := true } (declLines { functions := [] }
        (.data ['w', ',', ' ', 'u', '1', '6', '[', '3', ']']
          ["  dw 0x0001".toList, "  dw 0x0002".toList, "  dw 0x0000".toList]))) := by
  have hname : IsName ['w'] := isName_of_check (by decide)
  have hsound : TySound (.array .u16 3) := ⟨trivial, by decide, by decide⟩
  have hfits : ∀ i ∈ [InitElem.int 1, .int 2], ElemFits { functions := [] } 2 i := by
    intro i hi
    rcases List.mem_cons.mp hi with rfl | hi
    · exact .inr rfl
    · rw [List.mem_singleton.mp hi]
      exact .inr rfl
  exact (@data_faithful {} { functions := [] } { labels := [], pass2 := true } ['w'] hname
    (.array .u16 3) (.array [.int 1, .int 2]) none _ hsound (by simp [SourceInit.fns])
    (by decide)).mpr (.inr ⟨hfits, .inr (.inr (.inr rfl))⟩)

/-- The value of a scalar is dropped. -/
theorem scalar_not_faithful :
    compileGlobal {} ['x'] .u16 (.scalar (.int 5)) none =
        some (.global "x, u16 ; has initializer".toList) ∧
      ¬InitialisedTo (typeSize {} .u16)
        (initValues {} { functions := [] } { labels := [], pass2 := true } .u16 (.scalar (.int 5)))
        (linesBytes { labels := [], pass2 := true } (declLines { functions := [] }
          (.global "x, u16 ; has initializer".toList))) := by
  refine ⟨by decide, ?_⟩
  rintro ⟨-, k, hk⟩
  have hbytes : linesBytes { labels := [], pass2 := true } (declLines { functions := [] }
      (.global "x, u16 ; has initializer".toList)) = [0, 0] := by decide
  rw [hbytes] at hk
  cases hk

end Nib.Bind
