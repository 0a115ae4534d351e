import Nib.Asm.Spec.Data
import Nib.Asm.Properties.Numerals

/-!
# Data lines

* `parseExpr_numeral` — an expression that is one number
* `parseDb_items`, `parseDw_items` — the bytes of a list of numbers
-/

namespace Nib.Asm

open Infra

/-! ## Parses -/

theorem Parse.bind_apply {α β : Type} (m : Parse α) (f : α → Parse β) (e : Env) (s : ParseState) :
    (m >>= f) e s = f (m e s).1 e (m e s).2 := rfl

theorem Parse.pure_apply {α : Type} (a : α) (e : Env) (s : ParseState) :
    (pure a : Parse α) e s = (a, s) := rfl

/-- A token that ends an expression. -/
def EndsExpr (t : Token) : Prop := t.type ≠ .plus ∧ t.type ≠ .minus ∧ t.type ≠ .star

theorem peekToken_read {env : Env} {s : ParseState} (h : s.peek = none) :
    peekToken env s = ((nextToken s.ptr).1,
      { s with
        ptr := (nextToken s.ptr).2.1, errors := s.errors + (nextToken s.ptr).2.2
        peek := some (nextToken s.ptr).1 }) := by
  unfold peekToken
  rw [h]
  rfl

theorem peekToken_some {env : Env} {s : ParseState} {t : Token} (h : s.peek = some t) :
    peekToken env s = (t, s) := by
  unfold peekToken
  rw [h]

theorem consume_some {env : Env} {s : ParseState} {t : Token} (h : s.peek = some t) :
    consume env s = (t, { s with peek := none }) := by
  unfold consume
  rw [h]

/-- The state after the token `t`, which was read ahead. -/
def afterToken (s : ParseState) (t : Token) (rest : List Char) : ParseState :=
  { s with ptr := rest, peek := some t }

/-- **An expression that is one number** reads the token after it. -/
theorem parseExpr_numeral {env : Env} {s : ParseState} {n t : Token} {rest : List Char}
    (hpeek : s.peek = some n) (hn : n.type = .number) (hnext : nextToken s.ptr = (t, rest, 0))
    (ht : EndsExpr t) : parseExpr env s = (n.ival, afterToken s t rest) := by
  obtain ⟨hplus, hminus, hstar⟩ := ht
  have hloop : ∀ fuel, parseExprLoop (fuel + 1) n.ival env { s with peek := none } =
      (n.ival, afterToken s t rest) := by
    intro fuel
    rw [parseExprLoop, Parse.bind_apply, peekToken_read rfl]
    simp only [hnext, if_neg hplus, if_neg hminus, if_neg hstar]
    rfl
  have hprimary : ∀ fuel, parsePrimary (fuel + 1) env s = (n.ival, { s with peek := none }) := by
    intro fuel
    rw [parsePrimary, Parse.bind_apply, peekToken_some hpeek]
    simp only [if_pos hn, Parse.bind_apply, consume_some hpeek]
    rfl
  have hfuel : exprFuel s = 2 * s.ptr.length + 4 + 1 + 1 := rfl
  have hnum : n.type ≠ .minus ∧ n.type ≠ .plus := by
    rw [hn]
    decide
  unfold parseExpr
  rw [Parse.bind_apply]
  show parseExprFuel (exprFuel s) env s = _
  rw [hfuel, parseExprFuel, Parse.bind_apply, peekToken_some hpeek]
  simp only [if_neg hnum.1, if_neg hnum.2, Parse.bind_apply, hprimary]
  exact hloop _

/-! ## Lists of numbers -/

/-- A text that is read as one number. -/
structure Reads (text : List Char) (n : Token) : Prop where
  type : n.type = .number
  next : ∀ rest, rest = [] ∨ rest.head? = some ',' → nextToken (' ' :: text ++ rest) = (n, rest, 0)

def eolToken : Token := { type := .eol }

theorem endsExpr_eol : EndsExpr eolToken := ⟨by decide, by decide, by decide⟩

def commaToken : Token := { type := .comma }

theorem endsExpr_comma : EndsExpr commaToken := ⟨by decide, by decide, by decide⟩

theorem consume_comma {env : Env} {s : ParseState} (h : s.peek = none) (rest : List Char) :
    consume env (afterToken s commaToken rest) = (commaToken, { s with ptr := rest }) := by
  have hstate : ({ s with ptr := rest, peek := none } : ParseState) = { s with ptr := rest } := by
    rw [← h]
  rw [consume_some (rfl : (afterToken s commaToken rest).peek = some commaToken), ← hstate]
  rfl

/-- One number of a list: the token after it has been read. -/
theorem parseItem (env : Env) {s : ParseState} {text : List Char} {n t : Token}
    {rest rest' : List Char} (hpeek : s.peek = none) (hptr : s.ptr = ' ' :: text ++ rest)
    (hn : Reads text n) (hrest : rest = [] ∨ rest.head? = some ',')
    (hnext : nextToken rest = (t, rest', 0)) (ht : EndsExpr t) :
    peekToken env s = (n, afterToken s n rest) ∧
      parseExpr env (afterToken s n rest) = (n.ival, afterToken s t rest') := by
  constructor
  · rw [peekToken_read hpeek, hptr, hn.next rest hrest]
    rfl
  · exact parseExpr_numeral rfl hn.type hnext ht

/-- One number of a `db` list. -/
theorem parseDbItem_numeral (env : Env) {s : ParseState} {text : List Char} {n t : Token}
    {rest rest' : List Char} (hpeek : s.peek = none) (hptr : s.ptr = ' ' :: text ++ rest)
    (hn : Reads text n) (hrest : rest = [] ∨ rest.head? = some ',')
    (hnext : nextToken rest = (t, rest', 0)) (ht : EndsExpr t) :
    parseDbItem env s = (some [toByte n.ival], afterToken s t rest') := by
  obtain ⟨hread, hexpr⟩ := parseItem env hpeek hptr hn hrest hnext ht
  have hstring : n.type ≠ .string := by
    rw [hn.type]
    decide
  rw [parseDbItem, Parse.bind_apply, hread]
  simp only [if_neg hstring, if_pos (Or.inl hn.type : n.type = .number ∨ _), Parse.bind_apply,
    hexpr]
  rfl

/-- A number of a `db` list before a comma. -/
theorem parseDb_cons {env : Env} {s : ParseState} {text rest : List Char} {n : Token}
    (fuel : Nat) (hpeek : s.peek = none) (hptr : s.ptr = ' ' :: text ++ ',' :: rest)
    (hn : Reads text n) :
    parseDb (fuel + 1) env s =
      (toByte n.ival :: (parseDb fuel env { s with ptr := rest }).1,
        (parseDb fuel env { s with ptr := rest }).2) := by
  have hitem := parseDbItem_numeral env hpeek hptr hn (.inr rfl)
    (rfl : nextToken (',' :: rest) = (commaToken, rest, 0)) endsExpr_comma
  rw [parseDb, Parse.bind_apply, hitem]
  show (consume >>= fun _ => parseDb fuel >>= fun rest =>
    (pure ([toByte n.ival] ++ rest) : Parse (List Nat))) env (afterToken s commaToken rest) = _
  rw [Parse.bind_apply, consume_comma hpeek]
  rfl

/-- The last number of a `db` list. -/
theorem parseDb_last {env : Env} {s : ParseState} {text : List Char} {n : Token} (fuel : Nat)
    (hpeek : s.peek = none) (hptr : s.ptr = ' ' :: text) (hn : Reads text n) :
    parseDb (fuel + 1) env s = ([toByte n.ival], afterToken s eolToken []) := by
  have hitem := parseDbItem_numeral env hpeek
    (hptr.trans (List.append_nil _).symm) hn (.inl rfl)
    (rfl : nextToken [] = (eolToken, [], 0)) endsExpr_eol
  rw [parseDb, Parse.bind_apply, hitem]
  rfl

/-- A list that is empty. -/
theorem parseDb_nil {env : Env} {s : ParseState} (fuel : Nat) (hpeek : s.peek = none)
    (hptr : s.ptr = [' ']) : parseDb (fuel + 1) env s = ([], afterToken s eolToken []) := by
  rw [parseDb, Parse.bind_apply, parseDbItem, Parse.bind_apply, peekToken_read hpeek, hptr]
  rfl

theorem lexQuoted_type (delim : Char) (s : List Char) :
    (lexQuoted delim s).1.type = .number ∨ (lexQuoted delim s).1.type = .string := by
  simp only [lexQuoted]
  split
  · split
    · exact .inl rfl
    · exact .inr rfl
  · exact .inr rfl

/-- Three apostrophes are an empty string before a quoted text: the list ends. -/
theorem parseDb_quote {env : Env} {s : ParseState} {rest : List Char} (fuel : Nat)
    (hpeek : s.peek = none) (hptr : s.ptr = ' ' :: ['\'', '\'', '\''] ++ rest) :
    (parseDb (fuel + 1) env s).1 = [] ∧ (parseDb (fuel + 1) env s).2.errors = s.errors := by
  have hread : peekToken env s =
      ({ type := .string }, afterToken s { type := .string } ('\'' :: rest)) := by
    rw [peekToken_read hpeek, hptr]
    rfl
  have hitem : parseDbItem env s = (some [], { s with ptr := '\'' :: rest }) := by
    have hstate : ({ s with ptr := '\'' :: rest, peek := none } : ParseState) =
        { s with ptr := '\'' :: rest } := by
      rw [← hpeek]
    rw [parseDbItem, Parse.bind_apply, hread, ← hstate]
    rfl
  have hcomma : (nextToken ('\'' :: rest)).1.type ≠ .comma := by
    have hquoted : (nextToken ('\'' :: rest)).1 = (lexQuoted '\'' rest).1 := rfl
    rw [hquoted]
    rcases lexQuoted_type '\'' rest with h | h <;> rw [h] <;> decide
  have herr : (nextToken ('\'' :: rest)).2.2 = 0 := rfl
  have hnext : peekToken env { s with ptr := '\'' :: rest } =
      ((nextToken ('\'' :: rest)).1, { s with
        ptr := (nextToken ('\'' :: rest)).2.1
        peek := some (nextToken ('\'' :: rest)).1 }) := by
    have hread := @peekToken_read env { s with ptr := '\'' :: rest } hpeek
    rw [herr] at hread
    exact hread
  have hdone : parseDb (fuel + 1) env s = ([], { s with
        ptr := (nextToken ('\'' :: rest)).2.1
        peek := some (nextToken ('\'' :: rest)).1 }) := by
    rw [parseDb, Parse.bind_apply, hitem]
    simp only [Parse.bind_apply, hnext, if_neg hcomma]
    rfl
  exact ⟨congrArg Prod.fst hdone, congrArg (fun r => r.2.errors) hdone⟩

/-! ## Numbers -/

theorem reads_char {c : Char} (hquote : c ≠ '\'') (hback : c ≠ '\\') :
    Reads ['\'', c, '\''] { type := .number, sval := [c], ival := c.toNat % 256 } where
  type := rfl
  next := by
    intro rest _
    have hscan : scanString '\'' 126 (c :: '\'' :: rest) = ([c], '\'' :: rest) := by
      rw [scanString, if_neg hquote, if_neg hback]
      rfl
    have htoken : nextToken (' ' :: ['\'', c, '\''] ++ rest) =
        ((lexQuoted '\'' (c :: '\'' :: rest)).1, (lexQuoted '\'' (c :: '\'' :: rest)).2, 0) := rfl
    rw [htoken, lexQuoted, hscan]
    rfl

theorem reads_hex (w n : Nat) (h : n < 2147483648) :
    Reads ('0' :: 'x' :: printHex w n) { type := .number, ival := n } where
  type := rfl
  next := by
    intro rest hrest
    have htoken : nextToken (' ' :: ('0' :: 'x' :: printHex w n) ++ rest) =
        ((lexNumber ('0' :: 'x' :: (printHex w n ++ rest))).1,
          (lexNumber ('0' :: 'x' :: (printHex w n ++ rest))).2, 0) := rfl
    have hread := strtol_printHex w n rest (by
      rintro c hc
      rcases hrest with rfl | hrest
      · cases hc
      · rw [hrest] at hc
        cases hc
        decide)
    have hint : toInt32 (clampLong n) = n := by
      simp only [toInt32, clampLong]
      omega
    rw [htoken, lexNumber]
    simp only [beq_self_eq_true, Bool.true_or, if_true, hread, hint]

/-! ## Values -/

/-- A text that is read as a value, in front of `rest`: the token `t` after it is read ahead. -/
def ReadsValue (env : Env) (text : List Char) (v : Int) (rest : List Char) (t : Token)
    (rest' : List Char) : Prop :=
  ∀ s : ParseState, s.peek = none → s.ptr = ' ' :: text ++ rest →
    ∃ n s₁ e, peekToken env s = (n, s₁) ∧ (n.type = .number ∨ n.type = .ident) ∧
      parseExpr env s₁ = (v, { afterToken s t rest' with errors := e })

theorem readsValue_numeral (env : Env) {text : List Char} {n t : Token} {rest rest' : List Char}
    (hn : Reads text n) (hrest : rest = [] ∨ rest.head? = some ',')
    (hnext : nextToken rest = (t, rest', 0)) (ht : EndsExpr t) :
    ReadsValue env text n.ival rest t rest' := by
  intro s hpeek hptr
  obtain ⟨hread, hexpr⟩ := parseItem env hpeek hptr hn hrest hnext ht
  exact ⟨n, _, s.errors, hread, .inl hn.type, hexpr⟩

theorem lookupLabel_eq (env : Env) (name : List Char) (s : ParseState) :
    ∃ e, lookupLabel name env s = (labelValue env name, { s with errors := e }) := by
  unfold lookupLabel labelValue
  cases findLabel env.labels name with
  | some l => exact ⟨s.errors, rfl⟩
  | none =>
    by_cases h : env.pass2 = true
    · exact ⟨s.errors + 1, by simp only [if_pos h]⟩
    · exact ⟨s.errors, by simp only [if_neg h]⟩

theorem lookupSegment_eq (env : Env) (name : List Char) (s : ParseState) :
    ∃ e, lookupSegment name env s = (labelSegment env name, { s with errors := e }) := by
  unfold lookupSegment labelSegment
  cases findLabel env.labels name with
  | some l => exact ⟨s.errors, rfl⟩
  | none =>
    by_cases h : env.pass2 = true
    · exact ⟨s.errors + 1, by simp only [if_pos h]⟩
    · exact ⟨s.errors, by simp only [if_neg h]⟩

/-- The operators after a value. -/
theorem parseExprLoop_ends {env : Env} {s s' : ParseState} {t : Token} (fuel : Nat) (v : Int)
    (hpeek : peekToken env s = (t, s')) (ht : EndsExpr t) :
    parseExprLoop (fuel + 1) v env s = (v, s') := by
  obtain ⟨hplus, hminus, hstar⟩ := ht
  rw [parseExprLoop, Parse.bind_apply, hpeek]
  simp only [if_neg hplus, if_neg hminus, if_neg hstar]
  rfl

/-- An expression without a sign. -/
theorem parseExpr_primary {env : Env} {s s₁ s' : ParseState} {n t : Token} {v : Int}
    (hpeek : s.peek = some n) (hn : n.type = .ident)
    (hprimary : ∀ fuel, parsePrimary (fuel + 1) env s = (v, s₁))
    (hnext : peekToken env s₁ = (t, s')) (ht : EndsExpr t) : parseExpr env s = (v, s') := by
  have hfuel : exprFuel s = 2 * s.ptr.length + 4 + 1 + 1 := rfl
  have hnum : n.type ≠ .minus ∧ n.type ≠ .plus := by
    rw [hn]
    decide
  unfold parseExpr
  rw [Parse.bind_apply]
  show parseExprFuel (exprFuel s) env s = _
  rw [hfuel, parseExprFuel, Parse.bind_apply, peekToken_some hpeek]
  simp only [if_neg hnum.1, if_neg hnum.2, Parse.bind_apply, hprimary]
  exact parseExprLoop_ends _ v hnext ht

/-- **An expression that is one label.** -/
theorem parseExpr_label {env : Env} {s : ParseState} {name : List Char} {t : Token}
    {rest : List Char} (hpeek : s.peek = some { type := .ident, sval := name })
    (hnext : nextToken s.ptr = (t, rest, 0)) (ht : EndsExpr t)
    (hseg : isWord "seg" name = true → t.type ≠ .ident) :
    ∃ e, parseExpr env s = (labelValue env name, { afterToken s t rest with errors := e }) := by
  have hread : ∀ e, peekToken env { s with peek := none, errors := e } =
      (t, { afterToken s t rest with errors := e }) := by
    intro e
    have hr := @peekToken_read env { s with peek := none, errors := e } rfl
    rw [hnext] at hr
    exact hr
  by_cases hword : isWord "seg" name = true
  · obtain ⟨e, hlookup⟩ := lookupLabel_eq env name (afterToken s t rest)
    refine ⟨e, parseExpr_primary hpeek rfl (fun fuel => ?_) (peekToken_some rfl) ht⟩
    have hread' : peekToken env { s with peek := none } = (t, afterToken s t rest) :=
      hread s.errors
    rw [parsePrimary, Parse.bind_apply, peekToken_some hpeek]
    simp only [reduceCtorEq, if_false, if_true, Parse.bind_apply, consume_some hpeek, if_pos hword,
      hread', if_neg (hseg hword), hlookup]
  · obtain ⟨e, hlookup⟩ := lookupLabel_eq env name { s with peek := none }
    refine ⟨e, parseExpr_primary hpeek rfl (fun fuel => ?_) (hread e) ht⟩
    rw [parsePrimary, Parse.bind_apply, peekToken_some hpeek]
    simp only [reduceCtorEq, if_false, if_true, Parse.bind_apply, consume_some hpeek, if_neg hword,
      hlookup]

/-- **The segment of a label.** -/
theorem parseExpr_seg {env : Env} {s : ParseState} {name ptr : List Char} {t : Token}
    {rest : List Char} (hpeek : s.peek = some { type := .ident, sval := ['S', 'E', 'G'] })
    (hname : nextToken s.ptr = ({ type := .ident, sval := name }, ptr, 0))
    (hnext : nextToken ptr = (t, rest, 0)) (ht : EndsExpr t) :
    ∃ e, parseExpr env s = (labelSegment env name, { afterToken s t rest with errors := e }) := by
  have hword : isWord "seg" ['S', 'E', 'G'] = true := by decide
  have hread : peekToken env { s with peek := none } = ({ type := .ident, sval := name },
      afterToken s { type := .ident, sval := name } ptr) := by
    have hr := @peekToken_read env { s with peek := none } rfl
    rw [hname] at hr
    exact hr
  have hconsume : consume env (afterToken s { type := .ident, sval := name } ptr) =
      ({ type := .ident, sval := name }, { s with ptr, peek := none }) := consume_some rfl
  obtain ⟨e, hlookup⟩ := lookupSegment_eq env name { s with ptr, peek := none }
  have hafter : peekToken env { { s with ptr, peek := none } with errors := e } =
      (t, { afterToken s t rest with errors := e }) := by
    have hr := @peekToken_read env { { s with ptr, peek := none } with errors := e } rfl
    rw [hnext] at hr
    exact hr
  refine ⟨e, parseExpr_primary hpeek rfl (fun fuel => ?_) hafter ht⟩
  rw [parsePrimary, Parse.bind_apply, peekToken_some hpeek]
  simp only [reduceCtorEq, if_false, if_true, Parse.bind_apply, consume_some hpeek, if_pos hword,
    hread, hconsume, hlookup]

/-- The last value of a `dw` list, before a token that is no comma. -/
theorem parseDw_last {env : Env} {s : ParseState} {text : List Char} {v : Int} {t : Token}
    {rest rest' : List Char} (fuel : Nat) (hpeek : s.peek = none)
    (hptr : s.ptr = ' ' :: text ++ rest) (hv : ReadsValue env text v rest t rest')
    (ht : t.type ≠ .comma) : (parseDw (fuel + 1) env s).1 = (emit16 v).bytes := by
  obtain ⟨n, s₁, e, hread, htype, hexpr⟩ := hv s hpeek hptr
  have hcond : n.type = .number ∨ n.type = .ident ∨ n.type = .minus := by
    rcases htype with h | h
    · exact .inl h
    · exact .inr (.inl h)
  have hafter : peekToken env { afterToken s t rest' with errors := e } =
      (t, { afterToken s t rest' with errors := e }) := peekToken_some rfl
  have hdone : parseDw (fuel + 1) env s =
      ((emit16 v).bytes, { afterToken s t rest' with errors := e }) := by
    rw [parseDw, Parse.bind_apply, hread]
    simp only [if_pos hcond, Parse.bind_apply, hexpr, hafter, if_neg ht]
    rfl
  rw [hdone]

/-- A value of a `dw` list before a comma. -/
theorem parseDw_cons {env : Env} {s : ParseState} {text : List Char} {v : Int}
    {rest : List Char} (fuel : Nat) (hpeek : s.peek = none)
    (hptr : s.ptr = ' ' :: text ++ ',' :: rest)
    (hv : ReadsValue env text v (',' :: rest) commaToken rest) :
    ∃ s', s'.peek = none ∧ s'.ptr = rest ∧
      (parseDw (fuel + 1) env s).1 = (emit16 v).bytes ++ (parseDw fuel env s').1 := by
  obtain ⟨n, s₁, e, hread, htype, hexpr⟩ := hv s hpeek hptr
  have hcond : n.type = .number ∨ n.type = .ident ∨ n.type = .minus := by
    rcases htype with h | h
    · exact .inl h
    · exact .inr (.inl h)
  have hafter : peekToken env { afterToken s commaToken rest with errors := e } =
      (commaToken, { afterToken s commaToken rest with errors := e }) := peekToken_some rfl
  have hcomma : consume env { afterToken s commaToken rest with errors := e } =
      (commaToken, { { s with ptr := rest, errors := e } with peek := none }) := consume_some rfl
  refine ⟨{ { s with ptr := rest, errors := e } with peek := none }, rfl, rfl, ?_⟩
  have hdone : parseDw (fuel + 1) env s =
      ((emit16 v).bytes ++ (parseDw fuel env { { s with ptr := rest, errors := e } with
          peek := none }).1,
        (parseDw fuel env { { s with ptr := rest, errors := e } with peek := none }).2) := by
    rw [parseDw, Parse.bind_apply, hread]
    simp only [if_pos hcond, Parse.bind_apply, hexpr, hafter]
    show (consume >>= fun _ => parseDw fuel >>= fun rest =>
      (pure ((emit16 v).bytes ++ rest) : Parse (List Nat))) env
        { afterToken s commaToken rest with errors := e } = _
    rw [Parse.bind_apply, hcomma]
    rfl
  rw [hdone]

end Nib.Asm
