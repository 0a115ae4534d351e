import Nib.Asm.Spec.DbList
import Nib.Asm.Properties.Tokens
import Mathlib.Data.List.TakeWhile

/-!
# `db` lists

* `factor_gives`, `sum_gives` — an expression is read with its value
* `str_token` — a quoted string is read as one token, up to its 126th character
* `dbList_bytes` — the bytes of a list, up to where it ends
* `db_emitsAll_iff` — when a `db` line emits the bytes of all items
-/

namespace Nib.Asm

open Parse

variable {env : Env} {p : ParseState} {s s' s₁ : List Char} {n k r : Nat} {α β : Type}

/-! ## Where the parser stands -/

/-- The parser stands before `s` with `n` errors. It may have looked at the first token. -/
def At (p : ParseState) (s : List Char) (n : Nat) : Prop :=
  (p.peek = none ∧ p.ptr = s ∧ p.errors = n) ∨
    (p.peek = some (nextToken s).1 ∧ p.ptr = (nextToken s).2.1 ∧
      p.errors = n + (nextToken s).2.2)

theorem at_peek (h : At p s n) : (peekToken env p).1 = (nextToken s).1 ∧
    At (peekToken env p).2 s n ∧ (peekToken env p).2.errors = n + (nextToken s).2.2 := by
  rcases h with ⟨hp, rfl, rfl⟩ | h
  · rw [peekToken_read hp]
    exact ⟨rfl, .inr ⟨rfl, rfl, rfl⟩, rfl⟩
  · rw [peekToken_some h.1]
    exact ⟨rfl, .inr h, h.2.2⟩

theorem at_consume (h : At p s n) : (consume env p).1 = (nextToken s).1 ∧
    At (consume env p).2 (nextToken s).2.1 (n + (nextToken s).2.2) := by
  rcases h with ⟨hp, rfl, rfl⟩ | ⟨hp, hptr, herr⟩
  · have hrun : consume env p = nextTokenRaw env p := by
      unfold consume
      rw [hp]
    rw [hrun]
    exact ⟨rfl, .inl ⟨hp, rfl, rfl⟩⟩
  · rw [consume_some hp]
    exact ⟨rfl, .inl ⟨rfl, hptr, herr⟩⟩

/-- Before `s` the parse gives `v` and leaves `s'`, with `k` errors. -/
def Gives (m : Parse α) (env : Env) (s : List Char) (v : α) (s' : List Char) (k : Nat) : Prop :=
  ∀ p n, At p s n → (m env p).1 = v ∧ At (m env p).2 s' (n + k)

variable {m : Parse α} {v : α} {w : β}

theorem gives_pure (a : α) : Gives (pure a) env s a s 0 := fun _ _ h => ⟨rfl, h⟩

theorem gives_bind {f : α → Parse β} (hm : Gives m env s v s₁ k) (hf : Gives (f v) env s₁ w s' r) :
    Gives (m >>= f) env s w s' (k + r) := by
  intro p n h
  obtain ⟨rfl, hat⟩ := hm p n h
  rw [Parse.bind_apply, ← Nat.add_assoc]
  exact hf _ _ hat

theorem gives_map (hm : Gives m env s v s' k) (f : α → β) :
    Gives (m >>= fun a => pure (f a)) env s (f v) s' k :=
  fun p n h => ⟨congrArg f (hm p n h).1, (hm p n h).2⟩

theorem gives_peek {f : Token → Parse β} (hf : Gives (f (nextToken s).1) env s w s' k) :
    Gives (peekToken >>= f) env s w s' k := by
  intro p n h
  obtain ⟨htok, hat, -⟩ := @at_peek env _ _ _ h
  rw [Parse.bind_apply, htok]
  exact hf _ _ hat

theorem gives_consume {f : Token → Parse β} {t : Token} (ht : nextToken s = (t, s₁, 0))
    (hf : Gives (f t) env s₁ w s' k) : Gives (consume >>= f) env s w s' k := by
  intro p n h
  obtain ⟨htok, hat⟩ := @at_consume env _ _ _ h
  rw [ht] at htok hat
  rw [Parse.bind_apply, htok]
  exact hf _ _ hat

theorem at_errors (h : At p s n) (e : Nat) : At { p with errors := p.errors + e } s (n + e) := by
  rcases h with ⟨hp, hptr, herr⟩ | ⟨hp, hptr, herr⟩
  · exact .inl ⟨hp, hptr, congrArg (· + e) herr⟩
  · exact .inr ⟨hp, hptr, (congrArg (· + e) herr).trans (Nat.add_right_comm _ _ _)⟩

theorem gives_lookupLabel (name : List Char) :
    Gives (lookupLabel name) env s (labelValue env name) s (undefinedErrors env name) := by
  intro p n h
  unfold lookupLabel labelValue undefinedErrors
  cases findLabel env.labels name with
  | some l => exact ⟨rfl, h⟩
  | none =>
    cases env.pass2 with
    | true => exact ⟨rfl, at_errors h 1⟩
    | false => exact ⟨rfl, h⟩

theorem gives_lookupSegment (name : List Char) :
    Gives (lookupSegment name) env s (labelSegment env name) s (undefinedErrors env name) := by
  intro p n h
  unfold lookupSegment labelSegment undefinedErrors
  cases findLabel env.labels name with
  | some l => exact ⟨rfl, h⟩
  | none =>
    cases env.pass2 with
    | true => exact ⟨rfl, at_errors h 1⟩
    | false => exact ⟨rfl, h⟩

theorem gives_expect {t : Token} {type : TokType} (ht : nextToken s = (t, s₁, 0))
    (htype : t.type = type) : Gives (expect type) env s () s₁ 0 := by
  refine gives_consume ht ?_
  rw [if_neg (not_not.mpr htype)]
  exact gives_pure ()

/-! ## Expressions -/

theorem lexes_append {ts us : List Token} (h : Lexes s (ts ++ us) s') :
    ∃ s₁, Lexes s ts s₁ ∧ Lexes s₁ us s' := by
  induction ts generalizing s with
  | nil => exact ⟨s, .nil s, h⟩
  | cons t ts ih =>
    cases h with
    | cons ht hne htail =>
      obtain ⟨s₁, hts, hus⟩ := ih htail
      exact ⟨s₁, .cons ht hne hts, hus⟩

theorem nextToken_shorter {t : Token} (ht : nextToken s = (t, s', r)) (hne : t.type ≠ .eol) :
    s'.length < s.length := by
  cases he : atEnd s with
  | true =>
    obtain ⟨heol, -⟩ := nextToken_atEnd he
    rw [ht] at heol
    exact absurd (congrArg Token.type heol) hne
  | false =>
    have hlt := nextToken_length he
    rw [ht] at hlt
    exact hlt

theorem lexes_length {ts : List Token} (h : Lexes s ts s') : ts.length + s'.length ≤ s.length := by
  induction h with
  | nil => exact Nat.le_of_eq (Nat.zero_add _)
  | cons ht hne _ ih =>
    have hlt := nextToken_shorter ht hne
    rw [List.length_cons]
    omega

def Sum.ops : Sum → Nat
  | .first _ _ => 0
  | .op e _ _ => e.ops + 1

theorem Sum.ops_le : ∀ e : Sum, e.ops ≤ e.tokens.length
  | .first _ _ => Nat.zero_le _
  | .op e o x => by
    have hle := e.ops_le
    rw [Sum.ops, Sum.tokens, List.length_append, List.length_cons]
    omega

/-- A number, a name or a parenthesis. -/
theorem Factor.head_tokens (x : Factor) : ∃ t ts, x.tokens = t :: ts ∧
    (t.type = .number ∨ t.type = .ident ∨ t.type = .lparen) := by
  cases x with
  | num t => exact ⟨_, _, rfl, .inl t.property⟩
  | label t => exact ⟨_, _, rfl, .inr (.inl t.property.1)⟩
  | seg kw t => exact ⟨_, _, rfl, .inr (.inl kw.property.1)⟩
  | paren e => exact ⟨_, _, rfl, .inr (.inr rfl)⟩

theorem gives_parsePrimary_label {fuel : Nat} (t : NameToken) (ht : nextToken s = (t.val, s', 0)) :
    Gives (parsePrimary (fuel + 1)) env s (labelValue env t.val.sval) s'
      (undefinedErrors env t.val.sval) := by
  rw [parsePrimary]
  refine gives_peek ?_
  have hnum : t.val.type ≠ .number := by
    rw [t.property.1]
    decide
  simp only [ht, if_neg hnum, if_pos t.property.1]
  refine gives_consume ht ?_
  rw [if_neg (by rw [t.property.2]; decide)]
  exact gives_lookupLabel _

theorem gives_parsePrimary_seg {fuel : Nat} (kw : SegToken) (t : LabelToken)
    (hkw : nextToken s = (kw.val, s₁, 0)) (ht : nextToken s₁ = (t.val, s', 0)) :
    Gives (parsePrimary (fuel + 1)) env s (labelSegment env t.val.sval) s'
      (undefinedErrors env t.val.sval) := by
  rw [parsePrimary]
  refine gives_peek ?_
  have hnum : kw.val.type ≠ .number := by
    rw [kw.property.1]
    decide
  simp only [hkw, if_neg hnum, if_pos kw.property.1]
  refine gives_consume hkw ?_
  rw [if_pos kw.property.2]
  refine gives_peek ?_
  simp only [ht, if_pos t.property]
  exact gives_consume ht (gives_lookupSegment _)

/-- The loop stops before any other token. -/
theorem gives_parseExprLoop_stop {fuel : Nat} {v : Int}
    (h : (nextToken s).1.type ≠ .plus ∧ (nextToken s).1.type ≠ .minus ∧
      (nextToken s).1.type ≠ .star) :
    Gives (parseExprLoop (fuel + 1) v) env s v s 0 := by
  rw [parseExprLoop]
  refine gives_peek ?_
  rw [if_neg h.1, if_neg h.2.1, if_neg h.2.2]
  exact gives_pure v

/-- One operator with its right operand. -/
theorem gives_parseExprLoop_op {fuel : Nat} {o : SumOp} {v x v' : Int} {s₂ : List Char}
    (ho : nextToken s = (o.token, s₁, 0)) (hx : Gives (parsePrimary fuel) env s₁ x s₂ k)
    (hloop : Gives (parseExprLoop fuel (o.apply v x)) env s₂ v' s' r) :
    Gives (parseExprLoop (fuel + 1) v) env s v' s' (k + r) := by
  rw [parseExprLoop]
  refine gives_peek ?_
  cases o with
  | add =>
    rw [if_pos (by rw [ho]; rfl)]
    exact gives_consume ho (gives_bind hx hloop)
  | sub =>
    rw [if_neg (by rw [ho]; rintro ⟨⟩), if_pos (by rw [ho]; rfl)]
    exact gives_consume ho (gives_bind hx hloop)
  | mul =>
    rw [if_neg (by rw [ho]; rintro ⟨⟩), if_neg (by rw [ho]; rintro ⟨⟩), if_pos (by rw [ho]; rfl)]
    exact gives_consume ho (gives_bind hx hloop)

/-- The first operand with its sign. -/
theorem gives_parseExprFuel_first {fuel : Nat} {sign : Sign} {x : Factor} {v' : Int}
    (h : Lexes s (Sum.first sign x).tokens s₁)
    (hx : ∀ {s}, Lexes s x.tokens s₁ →
      Gives (parsePrimary fuel) env s (x.value env) s₁ (x.errors env))
    (hloop : Gives (parseExprLoop fuel (sign.apply (x.value env))) env s₁ v' s' r) :
    Gives (parseExprFuel (fuel + 1)) env s v' s' (x.errors env + r) := by
  rw [parseExprFuel]
  refine gives_peek ?_
  rw [Sum.tokens] at h
  cases sign with
  | none =>
    obtain ⟨t, ts, htokens, htype⟩ := x.head_tokens
    have hfirst := h
    rw [Sign.tokens, List.nil_append, htokens] at hfirst
    cases hfirst with
    | cons ht _ _ =>
      have hminus : (nextToken s).1.type ≠ .minus := by
        rw [ht]
        rcases htype with h | h | h <;> simp [h]
      have hplus : (nextToken s).1.type ≠ .plus := by
        rw [ht]
        rcases htype with h | h | h <;> simp [h]
      rw [if_neg hminus, if_neg hplus]
      exact gives_bind (hx h) hloop
  | plus =>
    cases h with
    | cons ht _ htail =>
      rw [if_neg (by rw [ht]; rintro ⟨⟩), if_pos (by rw [ht])]
      exact gives_consume ht (gives_bind (hx htail) hloop)
  | minus =>
    cases h with
    | cons ht _ htail =>
      rw [if_pos (by rw [ht])]
      exact gives_consume ht (gives_bind (hx htail) hloop)

mutual

theorem factor_gives : ∀ (x : Factor) {fuel : Nat} {s s₁ : List Char},
    2 * x.tokens.length ≤ fuel → Lexes s x.tokens s₁ →
    Gives (parsePrimary fuel) env s (x.value env) s₁ (x.errors env)
  | .num t, fuel, s, s₁, hfuel, h => by
    obtain ⟨fuel, rfl⟩ := Nat.exists_eq_add_of_le' (Nat.le_trans (by decide : 1 ≤ 2) hfuel)
    cases h with
    | cons ht _ htail =>
      cases htail
      rw [parsePrimary]
      refine gives_peek ?_
      simp only [ht, if_pos t.property]
      exact gives_consume ht (gives_pure _)
  | .label t, fuel, s, s₁, hfuel, h => by
    obtain ⟨fuel, rfl⟩ := Nat.exists_eq_add_of_le' (Nat.le_trans (by decide : 1 ≤ 2) hfuel)
    cases h with
    | cons ht _ htail =>
      cases htail
      exact gives_parsePrimary_label t ht
  | .seg kw t, fuel, s, s₁, hfuel, h => by
    obtain ⟨fuel, rfl⟩ := Nat.exists_eq_add_of_le' (Nat.le_trans (by decide : 1 ≤ 4) hfuel)
    cases h with
    | cons hkw _ htail =>
      cases htail with
      | cons ht _ htail =>
        cases htail
        exact gives_parsePrimary_seg kw t hkw ht
  | .paren e, fuel, s, s₁, hfuel, h => by
    rw [Factor.tokens, List.length_cons, List.length_append, List.length_singleton] at hfuel
    obtain ⟨fuel, rfl⟩ := Nat.exists_eq_add_of_le' (Nat.le_trans (by omega : 1 ≤ _) hfuel)
    have hops := e.ops_le
    rw [Factor.tokens] at h
    cases h with
    | @cons _ inner _ _ _ hopen _ htail =>
      obtain ⟨s₂, he, hclose⟩ := lexes_append htail
      cases hclose with
      | cons hclose _ hnil =>
        cases hnil
        have hbody : Gives (parseExprFuel fuel) env inner (e.value env) s₂ (e.errors env) := by
          obtain ⟨rest, hrest⟩ : ∃ rest, fuel - e.ops - 1 = rest + 1 :=
            Nat.exists_eq_add_of_le' (by omega)
          refine sum_gives e (by omega) he (r := 0) ?_
          rw [hrest]
          exact gives_parseExprLoop_stop (by rw [hclose]; exact ⟨nofun, nofun, nofun⟩)
        rw [parsePrimary]
        refine gives_peek ?_
        simp only [hopen]
        show Gives _ env s (e.value env) s₁ (e.errors env + (0 + 0))
        refine gives_consume hopen (gives_bind hbody ?_)
        exact gives_bind (gives_expect hclose rfl) (gives_pure _)

/-- An expression, and then what the loop makes of it. -/
theorem sum_gives : ∀ (e : Sum) {fuel : Nat} {s s₁ s' : List Char} {v' : Int} {r : Nat},
    2 * e.tokens.length < fuel → Lexes s e.tokens s₁ →
    Gives (parseExprLoop (fuel - e.ops - 1) (e.value env)) env s₁ v' s' r →
    Gives (parseExprFuel fuel) env s v' s' (e.errors env + r)
  | .first sign x, fuel, s, s₁, s', v', r, hfuel, h, hloop => by
    obtain ⟨fuel, rfl⟩ := Nat.exists_eq_add_of_lt hfuel
    rw [Sum.tokens, List.length_append] at *
    refine gives_parseExprFuel_first h (fun hx => factor_gives x (by omega) hx) ?_
    exact hloop
  | .op e o x, fuel, s, s₁, s', v', r, hfuel, h, hloop => by
    have hops := e.ops_le
    rw [Sum.tokens] at h hfuel
    rw [List.length_append, List.length_cons] at hfuel
    obtain ⟨s₂, he, hop⟩ := lexes_append h
    cases hop with
    | cons ho _ hx =>
      obtain ⟨rest, hrest⟩ : ∃ rest, fuel - e.ops - 1 = rest + 1 :=
        Nat.exists_eq_add_of_le' (by omega)
      rw [Sum.errors, Nat.add_assoc]
      refine sum_gives e (by omega) he ?_
      rw [hrest]
      refine gives_parseExprLoop_op ho (factor_gives x (by omega) hx) ?_
      have hsame : fuel - (Sum.op e o x).ops - 1 = rest := by
        rw [Sum.ops]
        omega
      rw [hsame] at hloop
      exact hloop

end

theorem lexes_ptr {ts : List Token} (hat : At p s n) (h : Lexes s ts s₁) :
    ts.length ≤ p.ptr.length + 1 := by
  rcases hat with ⟨-, rfl, -⟩ | ⟨-, hptr, -⟩
  · have hlen := lexes_length h
    omega
  · cases h with
    | nil => exact Nat.zero_le _
    | @cons _ s' _ _ _ ht _ htail =>
      have hlen := lexes_length htail
      have hrest : (nextToken s).2.1 = s' := congrArg (fun r => r.2.1) ht
      rw [hptr, hrest, List.length_cons]
      omega

/-- Before a comma or the end of the line an expression is read whole. -/
theorem gives_parseExpr (e : Sum) (h : Lexes s e.tokens s₁) (hstop : EndsExpr (nextToken s₁).1) :
    Gives parseExpr env s (e.value env) s₁ (e.errors env) := by
  intro p n hat
  have hops := e.ops_le
  have hptr := lexes_ptr hat h
  obtain ⟨rest, hrest⟩ : ∃ rest, exprFuel p - e.ops - 1 = rest + 1 :=
    Nat.exists_eq_add_of_le' (by unfold exprFuel; omega)
  have hfuel : 2 * e.tokens.length < exprFuel p := by
    unfold exprFuel
    omega
  refine sum_gives e hfuel h (r := 0) ?_ p n hat
  rw [hrest]
  exact gives_parseExprLoop_stop hstop

/-! ## Quoted strings -/

theorem scanString_delim (delim : Char) (room : Nat) (s : List Char) :
    scanString delim (room + 1) (delim :: s) = ([], delim :: s) := by
  cases s <;> simp [scanString]

theorem scanString_plain {delim c : Char} (hne : c ≠ delim) (hback : c ≠ '\\') (room : Nat)
    (s : List Char) : scanString delim (room + 1) (c :: s) =
      (c :: (scanString delim room s).1, (scanString delim room s).2) := by
  cases s <;> simp [scanString, hne, hback]

theorem scanString_escape {delim : Char} (hdelim : delim ≠ '\\') (e : Char) (room : Nat)
    (s : List Char) : scanString delim (room + 1) ('\\' :: e :: s) =
      (unescape e :: (scanString delim room s).1, (scanString delim room s).2) := by
  simp [scanString, Ne.symm hdelim]

/-- As many characters as there is room for, and the text that is left. -/
theorem scanString_chars {delim : Char} (hdelim : delim ≠ '\\') (rest : List Char) :
    ∀ (room : Nat) (chars : List StrChar), (∀ c ∈ chars, c.Ok delim) →
    scanString delim room (chars.flatMap StrChar.text ++ delim :: rest) =
      ((chars.take room).map StrChar.value,
        (chars.drop room).flatMap StrChar.text ++ delim :: rest)
  | 0, chars, _ => by
    rw [scanString, List.take_zero, List.drop_zero]
    rfl
  | room + 1, [], _ => by
    rw [List.flatMap_nil, List.nil_append, scanString_delim]
    rfl
  | room + 1, .plain c :: chars, h => by
    obtain ⟨hne, hback⟩ := h (.plain c) List.mem_cons_self
    have ih := scanString_chars hdelim rest room chars fun c hc => h c (List.mem_cons_of_mem _ hc)
    show scanString delim (room + 1) (c :: (chars.flatMap StrChar.text ++ delim :: rest)) = _
    rw [scanString_plain hne hback, ih]
    rfl
  | room + 1, .escape c :: chars, h => by
    have ih := scanString_chars hdelim rest room chars fun c hc => h c (List.mem_cons_of_mem _ hc)
    show scanString delim (room + 1)
      ('\\' :: c :: (chars.flatMap StrChar.text ++ delim :: rest)) = _
    rw [scanString_escape hdelim, ih]
    rfl

theorem skipWs_blanks {blanks : List Char} (h : blanks.all isBlank = true) (s : List Char) :
    skipWs (blanks ++ s) = skipWs s := by
  induction blanks with
  | nil => rfl
  | cons c blanks ih =>
    rw [List.all_cons, Bool.and_eq_true] at h
    exact (List.dropWhile_cons_of_pos h.1).trans (ih h.2)

theorem nextToken_blanks {blanks : List Char} (h : blanks.all isBlank = true) (s : List Char) :
    nextToken (blanks ++ s) = nextToken s := by
  unfold nextToken
  rw [skipWs_blanks h]

/-- What a quoted literal is read as: at most 126 characters of it. -/
theorem nextToken_str {delim : Char} {chars : List StrChar} (hdelim : delim = '"' ∨ delim = '\'')
    (h : ∀ c ∈ chars, c.Ok delim) (rest : List Char) :
    nextToken ((DbItem.str delim chars).text ++ rest) =
      ((lexQuoted delim (chars.flatMap StrChar.text ++ delim :: rest)).1,
        (lexQuoted delim (chars.flatMap StrChar.text ++ delim :: rest)).2, 0) := by
  have htext : (DbItem.str delim chars).text ++ rest =
      delim :: (chars.flatMap StrChar.text ++ delim :: rest) := by
    simp [DbItem.text]
  rw [htext]
  rcases hdelim with rfl | rfl <;> rfl

/-- The token a quoted string is read as. -/
def strToken (delim : Char) (body : List Char) : Token :=
  match body with
  | [c] =>
    if delim = '\'' then { type := .number, sval := body, ival := c.toNat % 256 }
    else { type := .string, sval := body }
  | _ => { type := .string, sval := body }

variable {delim : Char} {chars : List StrChar}

theorem lexQuoted_eq (delim : Char) (s : List Char) :
    lexQuoted delim s = (strToken delim (scanString delim 126 s).1,
      match (scanString delim 126 s).2 with
      | c :: rest' => if c = delim then rest' else c :: rest'
      | [] => []) := by
  unfold lexQuoted strToken
  generalize scanString delim 126 s = r
  obtain ⟨body, rest⟩ := r
  match body with
  | [] => rfl
  | [c] =>
    dsimp only
    split_ifs <;> rfl
  | _ :: _ :: _ => rfl

/-- A string that fits. -/
theorem nextToken_short (hdelim : delim = '"' ∨ delim = '\'') (h : ∀ c ∈ chars, c.Ok delim)
    (hlen : chars.length ≤ 126) (rest : List Char) :
    nextToken ((DbItem.str delim chars).text ++ rest) =
      (strToken delim (chars.map StrChar.value), rest, 0) := by
  have hback : delim ≠ '\\' := by rcases hdelim with rfl | rfl <;> decide
  rw [nextToken_str hdelim h, lexQuoted_eq, scanString_chars hback rest 126 chars h,
    List.take_of_length_le hlen, List.drop_of_length_le hlen, List.flatMap_nil, List.nil_append]
  simp only [if_pos]

/-- A longer string is cut, and the text after the cut is left in the line. -/
theorem nextToken_cut (hdelim : delim = '"' ∨ delim = '\'') (h : ∀ c ∈ chars, c.Ok delim)
    (hlen : 126 < chars.length) (rest : List Char) :
    nextToken ((DbItem.str delim chars).text ++ rest) =
      (strToken delim ((chars.take 126).map StrChar.value), DbItem.cutText delim chars rest,
        0) := by
  have hback : delim ≠ '\\' := by rcases hdelim with rfl | rfl <;> decide
  rw [nextToken_str hdelim h, lexQuoted_eq, scanString_chars hback rest 126 chars h]
  have hleft : ∃ c t, (chars.drop 126).flatMap StrChar.text = c :: t ∧ c ≠ delim := by
    cases hdrop : chars.drop 126 with
    | nil =>
      rw [List.drop_eq_nil_iff] at hdrop
      exact absurd hdrop (Nat.not_le.mpr hlen)
    | cons c cs =>
      have hc := h c (List.mem_of_mem_drop (by rw [hdrop]; exact List.mem_cons_self))
      cases c with
      | plain c => exact ⟨c, _, rfl, hc.1⟩
      | escape c => exact ⟨'\\', _, rfl, Ne.symm hback⟩
  obtain ⟨c, t, hleft, hne⟩ := hleft
  rw [DbItem.cutText, hleft, List.cons_append]
  simp only [if_neg hne]

theorem strToken_string {body : List Char} (h : ¬(delim = '\'' ∧ body.length = 1)) :
    strToken delim body = { type := .string, sval := body } := by
  unfold strToken
  match body with
  | [] => rfl
  | [c] => exact if_neg fun hd => h ⟨hd, rfl⟩
  | _ :: _ :: _ => rfl

/-! ## Items -/

variable {rest : List Char}

theorem nextToken_endsItem (h : EndsItem rest) : (nextToken rest).2.2 = 0 ∧
    EndsExpr (nextToken rest).1 := by
  rcases h with h | h
  · obtain ⟨htok, -, herr⟩ := nextToken_atEnd h
    rw [htok]
    refine ⟨herr, ?_, ?_, ?_⟩ <;> rintro ⟨⟩
  · obtain ⟨c, t, hs⟩ : ∃ c t, skipWs rest = c :: t := by
      cases hs : skipWs rest with
      | nil =>
        rw [hs] at h
        cases h
      | cons c t => exact ⟨c, t, rfl⟩
    rw [hs] at h
    obtain rfl := Option.some.inj h
    rw [nextToken, hs]
    refine ⟨rfl, ?_, ?_, ?_⟩ <;> rintro ⟨⟩

/-- An expression that the list takes. -/
theorem gives_parseDbItem_expr {e : Sum} (h : Lexes s e.tokens rest) (hrest : EndsItem rest)
    (htype : (nextToken s).1.type = .number ∨ (nextToken s).1.type = .ident ∨
      (nextToken s).1.type = .minus) :
    Gives parseDbItem env s (some [toByte (e.value env)]) rest (e.errors env) := by
  have hstring : (nextToken s).1.type ≠ .string := by
    rcases htype with h | h | h <;> simp [h]
  unfold parseDbItem
  refine gives_peek ?_
  rw [if_neg hstring, if_pos htype]
  exact gives_map (gives_parseExpr e h (nextToken_endsItem hrest).2) fun v => some [toByte v]

theorem gives_parseDbItem_string {body : List Char}
    (h : nextToken s = ({ type := .string, sval := body }, rest, 0)) :
    Gives parseDbItem env s
      (some ((body.takeWhile (· ≠ '\x00')).map fun c => c.toNat % 256)) rest 0 := by
  unfold parseDbItem
  refine gives_peek ?_
  rw [if_pos (by rw [h])]
  refine gives_consume h ?_
  rw [h]
  exact gives_pure _

theorem Sum.head_tokens : ∀ e : Sum, ∃ t ts, e.tokens = t :: ts ∧
    (if e.startsOdd = true then t.type = .plus ∨ t.type = .lparen
      else t.type = .number ∨ t.type = .ident ∨ t.type = .minus)
  | .first .none (.num t) => ⟨_, _, rfl, .inl t.property⟩
  | .first .none (.label t) => ⟨_, _, rfl, .inr (.inl t.property.1)⟩
  | .first .none (.seg kw _) => ⟨_, _, rfl, .inr (.inl kw.property.1)⟩
  | .first .none (.paren _) => ⟨_, _, rfl, .inr rfl⟩
  | .first .plus _ => ⟨_, _, rfl, .inl rfl⟩
  | .first .minus _ => ⟨_, _, rfl, .inr (.inr rfl)⟩
  | .op e o x => by
    obtain ⟨t, ts, htokens, htype⟩ := e.head_tokens
    rw [Sum.tokens, htokens]
    exact ⟨t, _, rfl, htype⟩

/-- An item that the list goes on after. -/
structure Taken (env : Env) (rest s : List Char) (item : DbItem) (bs : List Nat) (k : Nat) :
    Prop where
  gives : Gives parseDbItem env s (some bs) rest k
  goes : ¬item.Stops
  intact : item.Intact → bs = item.bytes env
  broken : ¬item.Intact → bs.length < (item.bytes env).length
  errors : 0 < k ↔ item.Reports env rest

/-- A string that is cut. -/
structure Cut (env : Env) (rest s cut : List Char) (item : DbItem) (bs : List Nat) : Prop where
  gives : Gives parseDbItem env s (some bs) cut 0
  stops : item.Stops
  shorter : bs.length < (item.bytes env).length
  errors : 0 < (nextToken cut).2.2 ↔ item.Reports env rest
  comma : (nextToken cut).1.type = .comma ↔ item.CutAtComma rest

/-- An expression that the list ends before. -/
structure Refused (env : Env) (rest s : List Char) (item : DbItem) : Prop where
  ends : ∀ p n, At p s n → (parseDbItem env p).1 = none ∧ (parseDbItem env p).2.errors = n
  stops : item.Stops
  bytes : 0 < (item.bytes env).length
  errors : ¬item.Reports env rest

theorem expr_item {text : List Char} {e : Sum} (h : Lexes s e.tokens rest)
    (hrest : EndsItem rest) :
    Taken env rest s (.expr text e) [toByte (e.value env)] (e.errors env) ∨
      Refused env rest s (.expr text e) := by
  obtain ⟨t, ts, htokens, htype⟩ := e.head_tokens
  have hfirst : ∃ s', nextToken s = (t, s', 0) := by
    rw [htokens] at h
    cases h with
    | cons ht _ _ => exact ⟨_, ht⟩
  obtain ⟨s', hfirst⟩ := hfirst
  by_cases hodd : e.startsOdd = true
  · rw [if_pos hodd] at htype
    refine .inr ⟨?_, hodd, Nat.one_pos, fun hr => ?_⟩
    · intro p n hat
      obtain ⟨htok, -, herr⟩ := @at_peek env _ _ _ hat
      rw [hfirst] at htok herr
      have hstring : t.type ≠ .string := by rcases htype with h | h <;> simp [h]
      have hother : ¬(t.type = .number ∨ t.type = .ident ∨ t.type = .minus) := by
        rcases htype with h | h <;> simp [h]
      have hrun : parseDbItem env p = (none, (peekToken env p).2) := by
        unfold parseDbItem
        rw [Parse.bind_apply, htok, if_neg hstring, if_neg hother]
        rfl
      rw [hrun]
      exact ⟨rfl, herr⟩
    · have hr := hr.1
      rw [hodd] at hr
      cases hr
  · rw [if_neg hodd] at htype
    have heven := Bool.eq_false_iff.mpr hodd
    refine .inl ⟨gives_parseDbItem_expr h hrest (by rw [hfirst]; exact htype), hodd,
      fun _ => rfl, fun hn => absurd heven hn, fun hk => ⟨heven, hk⟩, fun hr => hr.2⟩

/-- The bytes of a string token, up to its first NUL. -/
def bodyBytes (chars : List StrChar) : List Nat :=
  ((chars.map StrChar.value).takeWhile (· ≠ '\x00')).map fun c => c.toNat % 256

theorem bodyBytes_length (chars : List StrChar) : (bodyBytes chars).length ≤ chars.length := by
  unfold bodyBytes
  rw [List.length_map]
  exact Nat.le_trans (List.takeWhile_sublist _).length_le (Nat.le_of_eq (List.length_map _))

theorem bodyBytes_eq (h : ∀ c ∈ chars, c.value ≠ '\x00') :
    bodyBytes chars = chars.map fun c => c.value.toNat % 256 := by
  unfold bodyBytes
  have hall : (chars.map StrChar.value).takeWhile (· ≠ '\x00') = chars.map StrChar.value := by
    rw [List.takeWhile_eq_self_iff]
    intro v hv
    obtain ⟨c, hc, rfl⟩ := List.mem_map.mp hv
    exact decide_eq_true (h c hc)
  rw [hall, List.map_map]
  rfl

theorem bodyBytes_lt (h : ¬∀ c ∈ chars, c.value ≠ '\x00') :
    (bodyBytes chars).length < chars.length := by
  refine Nat.lt_of_le_of_ne (bodyBytes_length chars) fun heq => h ?_
  have hlen : ((chars.map StrChar.value).takeWhile (· ≠ '\x00')).length =
      (chars.map StrChar.value).length := by
    rw [List.length_map, ← heq, bodyBytes, List.length_map]
  have hall := (List.takeWhile_prefix _).eq_of_length hlen
  rw [List.takeWhile_eq_self_iff] at hall
  exact fun c hc => of_decide_eq_true (hall _ (List.mem_map_of_mem hc))

/-- A character in single quotes is a number. -/
theorem char_item {c : StrChar} (hrest : EndsItem rest)
    (hs : nextToken s = (strToken '\'' [c.value], rest, 0)) :
    Taken env rest s (.str '\'' [c]) [c.value.toNat % 256] 0 := by
  have htype : (nextToken s).1.type = .number := by
    rw [hs]
    rfl
  have hlex : Lexes s (Sum.first .none (.num ⟨strToken '\'' [c.value], rfl⟩)).tokens rest :=
    .cons hs nofun (.nil rest)
  have hbyte : toByte ((c.value.toNat : Int) % 256) = c.value.toNat % 256 := by
    unfold toByte
    omega
  have hgives := @gives_parseDbItem_expr env s rest _ hlex hrest (.inl htype)
  refine ⟨?_, (by decide : ¬126 < 1), fun _ => rfl, fun hn => absurd (.inl ⟨rfl, rfl⟩) hn, ?_⟩
  · rw [← hbyte]
    exact hgives
  · exact ⟨fun h => absurd h (Nat.lt_irrefl 0), fun h => absurd h.1 (by decide : ¬126 < 1)⟩

theorem str_item (hdelim : delim = '"' ∨ delim = '\'') (h : ∀ c ∈ chars, c.Ok delim)
    (hrest : EndsItem rest) (hs : nextToken s = nextToken ((DbItem.str delim chars).text ++ rest)) :
    (∃ bs, Taken env rest s (.str delim chars) bs 0) ∨
      ∃ bs, Cut env rest s (DbItem.cutText delim chars rest) (.str delim chars) bs := by
  by_cases hlen : 126 < chars.length
  · rw [nextToken_cut hdelim h hlen] at hs
    have htake : (chars.take 126).length = 126 := List.length_take_of_le (Nat.le_of_lt hlen)
    have hone : ¬(delim = '\'' ∧ ((chars.take 126).map StrChar.value).length = 1) := by
      rw [List.length_map, htake]
      exact fun hd => absurd hd.2 (by decide)
    rw [strToken_string hone] at hs
    have hshort : (bodyBytes (chars.take 126)).length < chars.length := by
      have hle := bodyBytes_length (chars.take 126)
      omega
    refine .inr ⟨bodyBytes (chars.take 126), gives_parseDbItem_string hs, hlen, ?_, ?_, ?_⟩
    · exact Nat.lt_of_lt_of_eq hshort (List.length_map _).symm
    · exact ⟨fun herr => ⟨hlen, herr⟩, fun hr => hr.2⟩
    · exact ⟨fun hcomma => ⟨hlen, hcomma⟩, fun hc => hc.2⟩
  · rw [nextToken_short hdelim h (Nat.not_lt.mp hlen)] at hs
    by_cases hchar : delim = '\'' ∧ chars.length = 1
    · obtain ⟨rfl, hone⟩ := hchar
      obtain ⟨c, rfl⟩ := List.length_eq_one_iff.mp hone
      exact .inl ⟨_, char_item hrest hs⟩
    · rw [strToken_string (by rw [List.length_map]; exact hchar)] at hs
      refine .inl ⟨bodyBytes chars, gives_parseDbItem_string hs, hlen, ?_, ?_, ?_⟩
      · rintro (hc | ⟨-, hnul⟩)
        · exact absurd hc hchar
        · exact bodyBytes_eq hnul
      · intro hn
        refine Nat.lt_of_lt_of_eq (bodyBytes_lt fun hnul => hn (.inr ⟨Nat.not_lt.mp hlen, hnul⟩)) ?_
        exact (List.length_map _).symm
      · exact ⟨fun h => absurd h (Nat.lt_irrefl 0), fun hr => absurd hr.1 hlen⟩

theorem nextToken_congr_lexes {s t : List Char} {ts : List Token} (h : Lexes t ts rest)
    (hne : ts ≠ []) (hs : nextToken s = nextToken t) : Lexes s ts rest := by
  cases h with
  | nil => exact absurd rfl hne
  | cons ht htype htail => exact .cons (hs.trans ht) htype htail

theorem Sum.tokens_ne_nil (e : Sum) : e.tokens ≠ [] := by
  obtain ⟨t, ts, htokens, -⟩ := e.head_tokens
  rw [htokens]
  exact List.cons_ne_nil _ _

/-- The three ways an item is read. -/
theorem entry_item {i : DbEntry} (h : i.Ok) (hrest : EndsItem rest) :
    (∃ bs k, Taken env rest (i.before ++ (i.item.text ++ rest)) i.item bs k) ∨
    (∃ cut bs, Cut env rest (i.before ++ (i.item.text ++ rest)) cut i.item bs) ∨
    Refused env rest (i.before ++ (i.item.text ++ rest)) i.item := by
  obtain ⟨before, item, after⟩ := i
  have hs := nextToken_blanks h.before (item.text ++ rest)
  have hok := h.item
  cases item with
  | str delim chars =>
    rcases str_item hok.1 hok.2 hrest hs with ⟨bs, htaken⟩ | ⟨bs, hcut⟩
    · exact .inl ⟨bs, 0, htaken⟩
    · exact .inr (.inl ⟨_, bs, hcut⟩)
  | expr text e =>
    have hlex := nextToken_congr_lexes (hok rest hrest) e.tokens_ne_nil hs
    rcases @expr_item env _ rest text e hlex hrest with htaken | hrefused
    · exact .inl ⟨_, _, htaken⟩
    · exact .inr (.inr hrefused)

/-! ## Lists -/

/-- The bytes of all items. -/
def listBytes (env : Env) (is : List DbEntry) : List Nat := is.flatMap fun i => i.item.bytes env

/-- What a list comes to: its bytes and its errors. -/
structure Gets (env : Env) (ending : List Char) (is : List DbEntry) (bs : List Nat) (k : Nat) :
    Prop where
  intact : Intact is → bs = listBytes env is
  broken : ¬Intact is → bs.length < (listBytes env is).length
  errors : 0 < k ↔ Reported env ending is

variable {ending : List Char} {i : DbEntry} {is : List DbEntry}

theorem stops_not_intact {item : DbItem} (h : item.Stops) : ¬item.Intact := by
  cases item with
  | str delim chars =>
    rintro (⟨-, hone⟩ | ⟨hlen, -⟩)
    · have h : 126 < chars.length := h
      omega
    · exact absurd h (Nat.not_lt.mpr hlen)
  | expr text e =>
    intro hi
    have h : e.startsOdd = true := h
    rw [hi] at h
    cases h

/-- The list ends with this item. -/
theorem gets_stop {bs : List Nat} {k : Nat} (hstops : i.item.Stops)
    (hlen : bs.length < (i.item.bytes env).length)
    (herr : 0 < k ↔ i.item.Reports env (i.after ++ dbRest ending is)) :
    Gets env ending (i :: is) bs k := by
  refine ⟨fun hi => absurd (hi i List.mem_cons_self) (stops_not_intact hstops), fun _ => ?_, ?_⟩
  · rw [listBytes, List.flatMap_cons, List.length_append]
    exact Nat.lt_of_lt_of_le hlen (Nat.le_add_right _ _)
  · rw [herr, Reported]
    exact ⟨.inl, fun h => h.resolve_right fun hn => hn.1 hstops⟩

theorem Gets.length_le {bs : List Nat} {k : Nat} (h : Gets env ending is bs k) :
    bs.length ≤ (listBytes env is).length := by
  by_cases hi : Intact is
  · exact Nat.le_of_eq (congrArg List.length (h.intact hi))
  · exact Nat.le_of_lt (h.broken hi)

/-- The list goes on after this item. -/
theorem gets_cons {s : List Char} {bs bs' : List Nat} {k k' : Nat}
    (hitem : Taken env (i.after ++ dbRest ending is) s i.item bs k)
    (hrest : Gets env ending is bs' k') : Gets env ending (i :: is) (bs ++ bs') (k + k') := by
  have hle := hrest.length_le
  refine ⟨fun hi => ?_, fun hn => ?_, ?_⟩
  · rw [hitem.intact (hi i List.mem_cons_self),
      hrest.intact fun j hj => hi j (List.mem_cons_of_mem i hj)]
    rfl
  · rw [listBytes, List.flatMap_cons, List.length_append, List.length_append]
    by_cases hi : i.item.Intact
    · have hlt := hrest.broken fun his => hn (List.forall_mem_cons.mpr ⟨hi, his⟩)
      rw [hitem.intact hi]
      exact Nat.add_lt_add_left hlt _
    · exact Nat.add_lt_add_of_lt_of_le (hitem.broken hi) hle
  · rw [Reported, ← hitem.errors, ← hrest.errors]
    have hgoes := hitem.goes
    constructor
    · intro hk
      by_cases h0 : 0 < k
      · exact .inl h0
      · exact .inr ⟨hgoes, by omega⟩
    · rintro (hk | ⟨-, hk⟩) <;> omega

theorem endsItem_after (h : i.Ok) (hend : atEnd ending = true) :
    EndsItem (i.after ++ dbRest ending is) := by
  unfold EndsItem atEnd
  rw [skipWs_blanks h.after]
  cases is with
  | nil => exact .inl hend
  | cons j js => exact .inr rfl

theorem gets_nil : Gets env ending [] [] 0 :=
  ⟨fun _ => rfl, fun hn => absurd (fun _ hi => nomatch hi) hn,
    ⟨fun h => absurd h (Nat.lt_irrefl 0), fun h => h.elim⟩⟩

/-- **The bytes of a list, up to where it ends**. -/
theorem dbList_bytes (hend : atEnd ending = true) : ∀ (is : List DbEntry) (i : DbEntry)
    {fuel n : Nat} {p : ParseState}, (∀ j ∈ i :: is, j.Ok) → is.length < fuel →
    NoCutAtComma ending (i :: is) →
    At p (i.before ++ (i.item.text ++ (i.after ++ dbRest ending is))) n →
    ∃ bs k, (parseDb fuel env p).1 = bs ∧ (parseDb fuel env p).2.errors = n + k ∧
      Gets env ending (i :: is) bs k
  | is, i, fuel + 1, n, p, hok, hfuel, hcomma, hat => by
    have hi := hok i List.mem_cons_self
    have hends := @endsItem_after ending i is hi hend
    rw [parseDb, Parse.bind_apply]
    rcases @entry_item env _ i hi hends with ⟨bs, k, htaken⟩ | ⟨cut, bs, hcut⟩ | hrefused
    · obtain ⟨hbytes, hat'⟩ := htaken.gives p n hat
      obtain ⟨htok, hat'', herr⟩ := @at_peek env _ _ _ hat'
      rw [hbytes]
      dsimp only
      rw [Parse.bind_apply, htok]
      cases is with
      | nil =>
        have heol : nextToken (i.after ++ ending) = nextToken ending := nextToken_blanks hi.after _
        obtain ⟨htoken, -, hzero⟩ := nextToken_atEnd hend
        have hstop : (nextToken (i.after ++ dbRest ending [])).1.type ≠ .comma := by
          rw [dbRest, heol, htoken]
          rintro ⟨⟩
        rw [dbRest, heol, hzero] at herr
        rw [if_neg hstop]
        exact ⟨_, k, rfl, herr, List.append_nil bs ▸ gets_cons htaken gets_nil⟩
      | cons j js =>
        have hcommaTok : nextToken (i.after ++ dbRest ending (j :: js)) = ({ type := .comma },
            j.before ++ (j.item.text ++ (j.after ++ dbRest ending js)), 0) :=
          nextToken_blanks hi.after _
        obtain ⟨-, hat₃⟩ := @at_consume env _ _ _ hat''
        rw [hcommaTok] at hat₃ ⊢
        obtain ⟨bs', k', hbytes', herr', hgets⟩ := dbList_bytes hend js j
          (fun x hx => hok x (List.mem_cons_of_mem i hx)) (Nat.lt_of_succ_lt_succ hfuel)
          (hcomma.2 htaken.goes) hat₃
        rw [if_pos rfl, Parse.bind_apply, Parse.bind_apply, hbytes']
        exact ⟨_, k + k', rfl, herr'.trans (Nat.add_assoc n k k'), gets_cons htaken hgets⟩
    · obtain ⟨hbytes, hat'⟩ := hcut.gives p n hat
      obtain ⟨htok, -, herr⟩ := @at_peek env _ _ _ hat'
      have hnone : (nextToken cut).1.type ≠ .comma := fun h => hcomma.1 (hcut.comma.mp h)
      rw [hbytes]
      dsimp only
      rw [Parse.bind_apply, htok, if_neg hnone]
      exact ⟨bs, _, rfl, herr, gets_stop hcut.stops hcut.shorter hcut.errors⟩
    · obtain ⟨hnone, herr⟩ := hrefused.ends p n hat
      rw [hnone]
      refine ⟨[], 0, rfl, herr, gets_stop hrefused.stops hrefused.bytes ?_⟩
      exact ⟨fun h => absurd h (Nat.lt_irrefl 0), fun h => absurd h hrefused.errors⟩

/-! ## Lines -/

theorem dbRest_length (ending : List Char) : ∀ is : List DbEntry,
    is.length ≤ (dbRest ending is).length
  | [] => Nat.zero_le _
  | i :: is => by
    have hle := dbRest_length ending is
    rw [dbRest]
    simp only [List.length_cons, List.length_append]
    omega

theorem isWord_other {v w : String} {name : List Char} (h : isWord v name = true)
    (hne : sameName v.toList w.toList = false) : ¬isWord w name = true := by
  intro hw
  have hv : name.map Char.toLower = v.toList.map Char.toLower := eq_of_beq h
  have hw : name.map Char.toLower = w.toList.map Char.toLower := eq_of_beq hw
  refine Bool.eq_false_iff.mp hne (beq_iff_eq.mpr ?_)
  rw [← hv, hw]

theorem parseStatement_db {line w rest : List Char} (hw : isWord "db" w = true)
    (ht : nextToken (splitLine line).2 = ({ type := .ident, sval := w }, rest, 0)) :
    ∃ p : ParseState, At p rest 0 ∧ parseStatement env { ptr := (splitLine line).2 } =
      (.data (parseDb (rest.length + 1) env p).1, (parseDb (rest.length + 1) env p).2) := by
  refine ⟨{ ptr := rest }, .inl ⟨rfl, rfl, rfl⟩, ?_⟩
  have horg : ¬isWord "org" w = true := isWord_other hw (by decide)
  have hendorg : ¬isWord "endorg" w = true := isWord_other hw (by decide)
  unfold parseStatement
  rw [Parse.bind_apply, peekToken_read rfl, ht]
  simp only [if_neg (by decide : ¬TokType.ident = .eol)]
  rw [Parse.bind_apply, consume_some rfl, Parse.bind_apply]
  simp only [getState, ne_eq, not_true_eq_false, if_false, if_neg horg, if_neg hendorg, if_pos hw]
  rfl

theorem intact_noCut : ∀ {is : List DbEntry}, Intact is → NoCutAtComma ending is
  | [], _ => trivial
  | i :: is, h => by
    refine ⟨fun hc => ?_, fun _ => intact_noCut fun j hj => h j (List.mem_cons_of_mem i hj)⟩
    refine stops_not_intact ?_ (h i List.mem_cons_self)
    cases hi : i.item with
    | str delim chars =>
      rw [hi] at hc
      exact hc.1
    | expr text e =>
      rw [hi] at hc
      exact hc.elim

/-- **A `db` line emits the bytes of all items, if all items are intact**. Unless a string is cut
before a comma, it does so only then, or with an error. -/
theorem db_emitsAll_iff (env : Env) (line ending : List Char) (is : List DbEntry)
    (h : IsDbLine line is ending) :
    (Intact is → EmitsAll env line is) ∧
    (NoCutAtComma ending is → (EmitsAll env line is ↔ Intact is ∨ Reported env ending is)) := by
  obtain ⟨w, hw, ht⟩ := h.directive
  obtain ⟨p, hat, hrun⟩ := @parseStatement_db env _ _ _ hw ht
  have hlen := dbRest_length ending is
  have hgets : NoCutAtComma ending is → ∃ bs k, lineBytes env line = bs ∧
      (parseStatement env { ptr := (splitLine line).2 }).2.errors = k ∧
      Gets env ending is bs k := by
    intro hcomma
    cases is with
    | nil => exact absurd rfl h.ne_nil
    | cons i is =>
      have hfuel : is.length < (dbRest ending (i :: is)).tail.length + 1 := by
        rw [List.length_tail]
        rw [List.length_cons] at hlen
        omega
      obtain ⟨bs, k, hbytes, herr, hg⟩ := dbList_bytes h.atEnd is i h.entries hfuel hcomma hat
      refine ⟨bs, k, ?_, ?_, hg⟩
      · rw [lineBytes, hrun]
        exact hbytes
      · rw [hrun]
        exact herr.trans (Nat.zero_add k)
  have hiff : NoCutAtComma ending is →
      (EmitsAll env line is ↔ Intact is ∨ Reported env ending is) := by
    intro hcomma
    obtain ⟨bs, k, hbytes, herr, hg⟩ := hgets hcomma
    rw [EmitsAll, hbytes, herr, hg.errors]
    refine or_congr ⟨fun heq => ?_, hg.intact⟩ Iff.rfl
    by_contra hn
    exact absurd (congrArg List.length heq) (Nat.ne_of_lt (hg.broken hn))
  exact ⟨fun hi => (hiff (intact_noCut hi)).mpr (.inl hi), hiff⟩

/-- `"ab", 5` -/
def wordAndNumber : List DbEntry :=
  [⟨[' '], .str '"' [.plain 'a', .plain 'b'], []⟩,
    ⟨[' '], .expr ['5'] (.first .none (.num ⟨{ type := .number, ival := 5 }, rfl⟩)), []⟩]

/-- `"abc\0def"` -/
def stringWithNul : List DbEntry :=
  [⟨[' '], .str '"' [.plain 'a', .plain 'b', .plain 'c', .escape '0', .plain 'd', .plain 'e',
    .plain 'f'], []⟩]

theorem endsItem_head (h : EndsItem rest) (c : Char) (hc : rest.head? = some c) :
    isXDigit c = false ∧ c ≠ 'h' ∧ c ≠ 'H' := by
  obtain ⟨t, rfl⟩ := List.head?_eq_some_iff.mp hc
  have hends : c = ' ' ∨ c = '\t' ∨ c = '\n' ∨ c = ';' ∨ c = ',' := by
    by_cases hb : isBlank c = true
    · simp only [isBlank, Bool.or_eq_true, beq_iff_eq] at hb
      exact hb.imp_right .inl
    · have hskip : skipWs (c :: t) = c :: t := List.dropWhile_cons_of_neg hb
      unfold EndsItem atEnd at h
      rw [hskip] at h
      simp only [Bool.or_eq_true, beq_iff_eq, List.head?_cons, Option.some.injEq] at h
      tauto
  rcases hends with rfl | rfl | rfl | rfl | rfl <;> decide

/-- A digit before a comma or the end of the line. -/
theorem five_token (h : EndsItem rest) :
    nextToken ('5' :: rest) = ({ type := .number, ival := 5 }, rest, 0) := by
  have hhead := endsItem_head h
  have hdrop : rest.dropWhile isXDigit = rest := by
    cases rest with
    | nil => rfl
    | cons c t => exact List.dropWhile_cons_of_neg (by rw [(hhead c rfl).1]; decide)
  have hnum : strtol 10 ('5' :: rest) = (clampLong 5, rest) := by
    refine strtol_printDec 5 rest fun c hc => Bool.eq_false_iff.mpr fun hd => ?_
    have hx := (hhead c hc).1
    unfold isXDigit at hx
    rw [hd] at hx
    cases hx
  have hlex : lexNumber ('5' :: rest) = ({ type := .number, ival := 5 }, rest) := by
    simp only [lexNumber, List.dropWhile_cons_of_pos (by decide : isXDigit '5' = true), hdrop, hnum]
    cases rest with
    | nil => rfl
    | cons c t =>
      obtain ⟨-, hh, hH⟩ := hhead c rfl
      simp only [Bool.or_eq_true, beq_iff_eq, hh, hH, or_self, if_false]
      rfl
  have hpunct : nextToken ('5' :: rest) =
      ((lexNumber ('5' :: rest)).1, (lexNumber ('5' :: rest)).2, 0) := rfl
  rw [hpunct, hlex]

theorem wordAndNumber_ok : ∀ i ∈ wordAndNumber, i.Ok := by
  intro i hi
  rcases List.mem_cons.mp hi with rfl | hi
  · refine ⟨rfl, ⟨.inl rfl, ?_⟩, rfl⟩
    decide
  · obtain rfl := List.mem_singleton.mp hi
    exact ⟨rfl, fun rest hrest => .cons (five_token hrest) nofun (.nil rest), rfl⟩

theorem wordAndNumber_emitsAll : EmitsAll ⟨[], true⟩ "db \"ab\", 5".toList wordAndNumber := by
  refine (db_emitsAll_iff ⟨[], true⟩ "db \"ab\", 5".toList [] wordAndNumber
    ⟨List.cons_ne_nil _ _, wordAndNumber_ok, rfl, ⟨['d', 'b'], rfl, rfl⟩⟩).1 fun i hi => ?_
  rcases List.mem_cons.mp hi with rfl | hi
  · exact .inr ⟨(by decide : 2 ≤ 126), by decide⟩
  · obtain rfl := List.mem_singleton.mp hi
    show (Sum.first .none (.num _)).startsOdd = false
    rfl

theorem stringWithNul_dropped : IsDbLine "db \"abc\\0def\"".toList stringWithNul [] ∧
    ¬EmitsAll ⟨[], true⟩ "db \"abc\\0def\"".toList stringWithNul := by
  refine ⟨⟨List.cons_ne_nil _ _, fun i hi => ?_, rfl, ⟨['d', 'b'], rfl, rfl⟩⟩, ?_⟩
  · obtain rfl := List.mem_singleton.mp hi
    refine ⟨rfl, ⟨.inl rfl, ?_⟩, rfl⟩
    decide
  · unfold EmitsAll
    decide

end Nib.Asm
