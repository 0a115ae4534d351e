import Nib.Asm.Spec.Closed
import Nib.Asm.Properties.Tokens

/-!
# Closing brackets

* `primary_takes`, `expr_takes` — an expression passes over the tokens as the scan does
* `memComponents_takes` — the loop over the components ends at the closing bracket, and only there
* `operand_takes` — the tokens of an operand
* `line_finishes_iff` — when a line is read to an end
-/

namespace Nib.Asm

open Parse Want

/-! ## What the parser has in front of it -/

/-- At the end of the line it may have looked ahead. -/
def Stream (p : ParseState) (ts : List Token) : Prop :=
  match p.peek with
  | none => tokens p.ptr = ts
  | some t => t :: tokens p.ptr = ts ∨ t = eolToken ∧ tokens p.ptr = [] ∧ ts = []

/-- The tokens that are left; `fresh` says that the parser has not looked ahead. -/
structure Before (p : ParseState) (ts : List Token) (fresh : Bool) : Prop where
  stream : Stream p ts
  fresh : fresh = true → p.peek = none

variable {env : Env} {p : ParseState} {ts ts' : List Token} {f f' : Bool} {α β : Type}

theorem exists_before (p : ParseState) : ∃ ts, Before p ts false := by
  cases hp : p.peek with
  | none => exact ⟨_, (by unfold Stream; rw [hp]), nofun⟩
  | some t => exact ⟨_, (by unfold Stream; rw [hp]; exact .inl rfl), nofun⟩

theorem Before.weaken (h : Before p ts f) : Before p ts false := ⟨h.stream, nofun⟩

theorem Before.errors (h : Before p ts f) (n : Nat) : Before { p with errors := n } ts f :=
  ⟨h.stream, h.fresh⟩

theorem before_start (text : List Char) : Before { ptr := text } (tokens text) true :=
  ⟨rfl, fun _ => rfl⟩

theorem Before.length (h : Before p ts f) : ts.length ≤ p.ptr.length + 1 := by
  have hs := h.stream
  have hle := tokens_length p.ptr
  unfold Stream at hs
  cases hp : p.peek with
  | none =>
    rw [hp] at hs
    rw [← hs]
    exact Nat.le_succ_of_le hle
  | some t =>
    rw [hp] at hs
    rcases hs with rfl | ⟨-, -, rfl⟩
    · exact Nat.succ_le_succ hle
    · exact Nat.zero_le _

theorem Before.length_fresh (h : Before p ts true) : ts.length ≤ p.ptr.length := by
  have hs := h.stream
  unfold Stream at hs
  rw [h.fresh rfl] at hs
  rw [← hs]
  exact tokens_length p.ptr

theorem Before.peeked {t : Token} (h : Before p ts f) (hp : p.peek = some t) :
    t = nextOf ts ∧ tokens p.ptr = ts.tail := by
  have hs := h.stream
  unfold Stream at hs
  rw [hp] at hs
  rcases hs with rfl | ⟨rfl, hnil, rfl⟩
  · exact ⟨rfl, rfl⟩
  · exact ⟨rfl, hnil⟩

theorem tokens_next (s : List Char) :
    (nextToken s).1 = nextOf (tokens s) ∧ tokens (nextToken s).2.1 = (tokens s).tail := by
  cases he : atEnd s with
  | true =>
    obtain ⟨htok, hrest, -⟩ := nextToken_atEnd he
    rw [tokens_atEnd he, htok, tokens_atEnd hrest]
    exact ⟨rfl, rfl⟩
  | false =>
    rw [tokens_cons he]
    exact ⟨rfl, rfl⟩

theorem Before.tokens_eq (h : Before p ts f) (hp : p.peek = none) : tokens p.ptr = ts := by
  have hs := h.stream
  unfold Stream at hs
  rwa [hp] at hs

/-- A token at the line pointer. -/
theorem nextTokenRaw_before (h : Before p ts true) :
    (nextTokenRaw env p).1 = nextOf ts ∧ Before (nextTokenRaw env p).2 ts.tail true := by
  have hp := h.fresh rfl
  obtain ⟨htok, hrest⟩ := tokens_next p.ptr
  rw [h.tokens_eq hp] at htok hrest
  refine ⟨htok, ?_, fun _ => hp⟩
  show match p.peek with | none => _ | some t => _
  rw [hp]
  exact hrest

theorem peekToken_before (h : Before p ts f) :
    (peekToken env p).1 = nextOf ts ∧ Before (peekToken env p).2 ts false ∧
      (peekToken env p).2.hung = p.hung ∧ (peekToken env p).2.peek = some (nextOf ts) := by
  cases hp : p.peek with
  | some t =>
    obtain ⟨rfl, -⟩ := h.peeked hp
    rw [peekToken_some hp]
    exact ⟨rfl, h.weaken, rfl, hp⟩
  | none =>
    obtain ⟨htok, hrest⟩ := tokens_next p.ptr
    rw [h.tokens_eq hp] at htok hrest
    rw [peekToken_read hp]
    refine ⟨htok, ⟨?_, nofun⟩, rfl, congrArg some htok⟩
    show _ ∨ _
    simp only [htok, hrest]
    cases ts with
    | nil => exact .inr ⟨rfl, rfl, rfl⟩
    | cons t ts => exact .inl rfl

theorem consume_before (h : Before p ts f) :
    (consume env p).1 = nextOf ts ∧ Before (consume env p).2 ts.tail true ∧
      (consume env p).2.hung = p.hung := by
  cases hp : p.peek with
  | some t =>
    obtain ⟨rfl, htail⟩ := h.peeked hp
    rw [consume_some hp]
    exact ⟨rfl, ⟨htail, fun _ => rfl⟩, rfl⟩
  | none =>
    have hrun : consume env p = nextTokenRaw env p := by
      unfold consume
      rw [hp]
    obtain ⟨htok, hnext⟩ := @nextTokenRaw_before env p ts ⟨h.stream, fun _ => hp⟩
    rw [hrun]
    exact ⟨htok, hnext, rfl⟩

/-! ## Parses over tokens -/

/-- What a parse comes to: the tokens that it leaves, or no end. -/
def Outcome (p r : ParseState) : Option (List Token × Bool) → Prop
  | some o => Before r o.1 o.2 ∧ r.hung = p.hung
  | none => r.hung = true

/-- With these tokens in front of it a parse comes to this end. -/
def TakesAt (m : Parse α) (ts : List Token) (f : Bool) (o : Option (List Token × Bool)) : Prop :=
  ∀ env p, Before p ts f → Outcome p (m env p).2 o

/-- A parse that does not end the hanging of an earlier one. -/
def Keeps (m : Parse α) : Prop := ∀ env p, p.hung = true → (m env p).2.hung = true

variable {m : Parse α} {k : α → Parse β} {o : Option (List Token × Bool)}

theorem Outcome.hung {r : ParseState} (h : Outcome p r o) (hp : p.hung = true) : r.hung = true := by
  cases o with
  | none => exact h
  | some o => exact h.2.trans hp

theorem keeps_of_takes (h : ∀ ts, ∃ o, TakesAt m ts false o) : Keeps m := by
  intro env p hp
  obtain ⟨ts, hts⟩ := exists_before p
  obtain ⟨o, ho⟩ := h ts
  exact (ho env p hts).hung hp

theorem takes_weaken (h : TakesAt m ts false o) : TakesAt m ts f o :=
  fun env p hp => h env p hp.weaken

theorem takes_pure (a : α) : TakesAt (pure a) ts f (some (ts, f)) :=
  fun _ _ hp => ⟨hp, rfl⟩

theorem takes_err : TakesAt err ts f (some (ts, f)) := fun _ _ hp => ⟨hp.errors _, rfl⟩

theorem takes_hang : TakesAt hang ts f none := fun _ _ _ => rfl

theorem takes_bind {o' : List Token × Bool} (h : TakesAt m ts f (some o'))
    (hk : ∀ a, TakesAt (k a) o'.1 o'.2 o) : TakesAt (m >>= k) ts f o := by
  intro env p hp
  obtain ⟨hnext, hhung⟩ := h env p hp
  have hlast := hk (m env p).1 env _ hnext
  cases o with
  | none => exact hlast
  | some o => exact ⟨hlast.1, hlast.2.trans hhung⟩

theorem takes_bind_none (h : TakesAt m ts f none) (hk : ∀ a, Keeps (k a)) :
    TakesAt (m >>= k) ts f none :=
  fun env p hp => hk _ env _ (h env p hp)

/-- The result of a parse does not matter for the tokens. -/
theorem takes_map (h : TakesAt m ts f o) (g : α → β) :
    TakesAt (m >>= fun a => pure (g a)) ts f o := by
  intro env p hp
  have ho := h env p hp
  cases o with
  | none => exact ho
  | some o => exact ho

theorem takes_peek {k : Token → Parse β} (h : TakesAt (k (nextOf ts)) ts false o) :
    TakesAt (peekToken >>= k) ts f o := by
  intro env p hp
  obtain ⟨htok, hnext, hhung, -⟩ := @peekToken_before env p ts f hp
  have hlast := h env _ hnext
  rw [Parse.bind_apply, htok]
  cases o with
  | none => exact hlast
  | some o => exact ⟨hlast.1, hlast.2.trans hhung⟩

theorem takes_consume {k : Token → Parse β} (h : TakesAt (k (nextOf ts)) ts.tail true o) :
    TakesAt (consume >>= k) ts f o := by
  intro env p hp
  obtain ⟨htok, hnext, hhung⟩ := @consume_before env p ts f hp
  have hlast := h env _ hnext
  rw [Parse.bind_apply, htok]
  cases o with
  | none => exact hlast
  | some o => exact ⟨hlast.1, hlast.2.trans hhung⟩

theorem takes_expect (type : TokType) : TakesAt (expect type) ts f (some (ts.tail, true)) := by
  refine takes_consume ?_
  split_ifs
  · exact takes_err
  · exact takes_pure _

theorem takes_lookupLabel (name : List Char) :
    TakesAt (lookupLabel name) ts f (some (ts, f)) := by
  intro env p hp
  obtain ⟨e, he⟩ := lookupLabel_eq env name p
  rw [he]
  exact ⟨hp.errors e, rfl⟩

theorem takes_lookupSegment (name : List Char) :
    TakesAt (lookupSegment name) ts f (some (ts, f)) := by
  intro env p hp
  obtain ⟨e, he⟩ := lookupSegment_eq env name p
  rw [he]
  exact ⟨hp.errors e, rfl⟩

theorem takes_weaken_out (h : TakesAt m ts f (some (ts', f'))) :
    TakesAt m ts f (some (ts', false)) :=
  fun env p hp => ⟨(h env p hp).1.weaken, (h env p hp).2⟩

/-! ## Expressions -/

theorem closes_cons {w w' : Want} {t : Token} (h : w.step t = some w') :
    closes w (t :: ts) = closes w' ts := by
  rw [closes, h]

/-- `SEG` without a label is a value of its own. -/
theorem closes_label {ops : Bool} {depth : Nat} (h : (nextOf ts).type ≠ .ident) :
    closes (.label ops depth) ts = closes (afterValue ops depth) ts := by
  cases ts with
  | nil => rfl
  | cons t ts =>
    have ht : t.type ≠ .ident := h
    have hstep : (Want.label ops depth).step t = (afterValue ops depth).step t := by
      simp only [step, if_neg ht, atAfterValue, afterValue]
      split_ifs <;> rfl
    rw [closes, closes, hstep]

/-- `parse_primary` takes a value. -/
def TakesValue (ts : List Token) : Prop :=
  ∃ ts', ts'.length ≤ ts.length - 1 ∧
    (∀ fuel, 2 * ts.length < fuel → TakesAt (parsePrimary fuel) ts false (some (ts', false))) ∧
    ∀ ops depth, closes (.value ops depth) ts = closes (afterValue ops depth) ts'

/-- A parse with more than `bound` fuel, from a place of an expression to its end, with at most `n`
tokens left there. What is left does not depend on the value so far. -/
def TakesExpr (m : Nat → Int → Parse α) (bound : Nat) (w : Bool → Nat → Want) (ts : List Token)
    (n : Nat) : Prop :=
  ∃ ts', ts'.length ≤ n ∧
    (∀ fuel v, bound < fuel → TakesAt (m fuel v) ts false (some (ts', false))) ∧
    isOperator (nextOf ts') = false ∧ ∀ ops depth, (depth = 0 → ops = true) →
      closes (w ops depth) ts = closes (.operator ops depth) ts'

def TakesSum (ts : List Token) : Prop :=
  TakesExpr (fun fuel _ => parseExprFuel fuel) (2 * ts.length + 1) .expr ts (ts.length - 1)

def TakesLoop (ts : List Token) : Prop :=
  TakesExpr parseExprLoop (2 * ts.length) .operator ts ts.length

theorem above {P : Nat → Prop} {bound : Nat} (h : ∀ fuel, bound ≤ fuel → P (fuel + 1)) :
    ∀ fuel, bound < fuel → P fuel
  | 0, hlt => absurd hlt (Nat.not_lt_zero _)
  | fuel + 1, hlt => h fuel (Nat.le_of_lt_succ hlt)

theorem afterValue_operator {ops : Bool} {depth : Nat} (h : depth = 0 → ops = true) :
    afterValue ops depth = .operator ops depth := by
  unfold afterValue
  rw [if_neg]
  simp only [Bool.and_eq_true, decide_eq_true_eq, Bool.not_eq_true', not_and, Bool.not_eq_false]
  exact h

theorem primary_takes (hsum : ∀ t ts', ts = t :: ts' → TakesSum ts') : TakesValue ts := by
  unfold TakesValue
  cases ts with
  | nil =>
    refine ⟨[], Nat.le_refl _, above fun fuel _ => ?_, fun _ _ => rfl⟩
    rw [parsePrimary]
    refine takes_peek ?_
    exact takes_bind takes_err fun _ => takes_weaken_out (takes_consume (takes_pure _))
  | cons t ts =>
    have hstep : ∀ ops depth, (Want.value ops depth).step t = some (atValue ops depth t) :=
      fun _ _ => rfl
    by_cases hnum : t.type = .number
    · refine ⟨ts, Nat.le_refl _, above fun fuel hfuel => ?_, fun ops depth => ?_⟩
      · rw [parsePrimary]
        refine takes_peek ?_
        rw [if_pos (show (nextOf (t :: ts)).type = .number from hnum)]
        exact takes_weaken_out (takes_consume (takes_pure _))
      · rw [closes_cons (hstep ops depth), atValue]
        simp [hnum]
    have hnum' : (nextOf (t :: ts)).type ≠ .number := hnum
    by_cases hident : t.type = .ident
    · by_cases hseg : isWord "seg" t.sval = true
      · by_cases hlabel : (nextOf ts).type = .ident
        · refine ⟨ts.tail, ?_, above fun fuel hfuel => ?_, fun ops depth => ?_⟩
          · rw [List.length_tail, List.length_cons]
            omega
          · rw [parsePrimary]
            refine takes_peek ?_
            rw [if_neg hnum', if_pos (show (nextOf (t :: ts)).type = .ident from hident)]
            refine takes_consume ?_
            rw [if_pos (show isWord "seg" (nextOf (t :: ts)).sval = true from hseg)]
            refine takes_peek ?_
            rw [List.tail_cons, if_pos hlabel]
            exact takes_consume (takes_weaken_out (takes_lookupSegment _))
          · rw [closes_cons (hstep ops depth), atValue]
            simp only [hident, hseg]
            cases ts with
            | nil => cases hlabel
            | cons l ts =>
              have hl : l.type = .ident := hlabel
              refine (closes_cons ?_)
              simp [step, hl]
        · refine ⟨ts, Nat.le_refl _, above fun fuel hfuel => ?_, fun ops depth => ?_⟩
          · rw [parsePrimary]
            refine takes_peek ?_
            rw [if_neg hnum', if_pos (show (nextOf (t :: ts)).type = .ident from hident)]
            refine takes_consume ?_
            rw [if_pos (show isWord "seg" (nextOf (t :: ts)).sval = true from hseg)]
            refine takes_peek ?_
            rw [List.tail_cons, if_neg hlabel]
            exact takes_lookupLabel _
          · rw [closes_cons (hstep ops depth), atValue, ← closes_label hlabel]
            simp [hident, hseg]
      · refine ⟨ts, Nat.le_refl _, above fun fuel hfuel => ?_, fun ops depth => ?_⟩
        · rw [parsePrimary]
          refine takes_peek ?_
          rw [if_neg hnum', if_pos (show (nextOf (t :: ts)).type = .ident from hident)]
          refine takes_consume ?_
          rw [if_neg (show ¬isWord "seg" (nextOf (t :: ts)).sval = true from hseg)]
          exact takes_weaken_out (takes_lookupLabel _)
        · rw [closes_cons (hstep ops depth), atValue]
          simp [hident, hseg]
    have hident' : (nextOf (t :: ts)).type ≠ .ident := hident
    by_cases hparen : t.type = .lparen
    · obtain ⟨ts', hlen, htakes, hop, hcloses⟩ := hsum t ts rfl
      refine ⟨ts'.tail, ?_, above fun fuel hfuel => ?_, fun ops depth => ?_⟩
      · rw [List.length_tail, List.length_cons]
        omega
      · rw [List.length_cons] at hfuel
        rw [parsePrimary]
        refine takes_peek ?_
        rw [if_neg hnum', if_neg hident',
          if_pos (show (nextOf (t :: ts)).type = .lparen from hparen)]
        refine takes_consume (takes_bind (takes_weaken (htakes fuel 0 (by omega))) fun v => ?_)
        exact takes_weaken_out (takes_map (takes_expect .rparen) fun _ => v)
      · -- what comes after the expression is taken for the closing parenthesis
        rw [closes_cons (hstep ops depth), atValue, if_pos hparen,
          hcloses ops (depth + 1) (fun h => absurd h (Nat.succ_ne_zero _))]
        cases ts' with
        | nil => rfl
        | cons c ts' =>
          have hc : isOperator c = false := hop
          refine closes_cons ?_
          simp [step, atOperator, hc]
    · have hparen' : (nextOf (t :: ts)).type ≠ .lparen := hparen
      refine ⟨ts, Nat.le_refl _, above fun fuel hfuel => ?_, fun ops depth => ?_⟩
      · rw [parsePrimary]
        refine takes_peek ?_
        rw [if_neg hnum', if_neg hident', if_neg hparen']
        exact takes_bind takes_err fun _ => takes_weaken_out (takes_consume (takes_pure _))
      · rw [closes_cons (hstep ops depth), atValue]
        simp [hident, hparen]

/-- The operators behind a value that has been taken. -/
theorem loop_takes (hvalue : ∀ t ts', ts = t :: ts' → TakesValue ts')
    (hloop : ∀ ts' : List Token, ts'.length < ts.length → TakesLoop ts') : TakesLoop ts := by
  unfold TakesLoop TakesExpr
  cases hop : isOperator (nextOf ts) with
  | false =>
    obtain ⟨⟨hplus, hminus⟩, hstar⟩ : ((nextOf ts).type ≠ .plus ∧ (nextOf ts).type ≠ .minus) ∧
        (nextOf ts).type ≠ .star := by
      simpa [isOperator] using hop
    refine ⟨ts, Nat.le_refl _, fun fuel v => ?_, hop, fun _ _ _ => rfl⟩
    revert fuel
    refine above fun fuel _ => ?_
    rw [parseExprLoop]
    refine takes_peek ?_
    rw [if_neg hplus, if_neg hminus, if_neg hstar]
    exact takes_pure _
  | true =>
    cases ts with
    | nil => cases hop
    | cons t ts =>
      obtain ⟨ts₁, hlen₁, htakes₁, hcloses₁⟩ := hvalue t ts rfl
      obtain ⟨ts₂, hlen₂, htakes₂, hop₂, hcloses₂⟩ := hloop ts₁ (by
        rw [List.length_cons]
        omega)
      refine ⟨ts₂, ?_, fun fuel v => ?_, hop₂, fun ops depth h => ?_⟩
      · rw [List.length_cons]
        omega
      · revert fuel
        refine above fun fuel hfuel => ?_
        rw [List.length_cons] at hfuel
        have hrun : ∀ g : Int → Int, TakesAt (do
            let _ ← consume
            let rhs ← parsePrimary fuel
            parseExprLoop fuel (g rhs)) (t :: ts) false (some (ts₂, false)) := fun g =>
          takes_consume (takes_bind (takes_weaken (htakes₁ fuel (by omega))) fun rhs =>
            htakes₂ fuel _ (by omega))
        rw [parseExprLoop]
        refine takes_peek ?_
        split_ifs with h1 h2 h3
        · exact hrun _
        · exact hrun _
        · exact hrun _
        · exact absurd hop (by simp [isOperator, h1, h2, h3])
      · have hstep : (Want.operator ops depth).step t = some (.value ops depth) := by
          have hop' : isOperator t = true := hop
          simp [step, atOperator, hop']
        rw [closes_cons hstep, hcloses₁, afterValue_operator h, hcloses₂ ops depth h]

theorem sum_takes (hvalue : ∀ ts' : List Token, ts'.length ≤ ts.length → TakesValue ts')
    (hloop : ∀ ts' : List Token, ts'.length ≤ ts.length → TakesLoop ts') : TakesSum ts := by
  unfold TakesSum TakesExpr
  by_cases hsign : (nextOf ts).type = .minus ∨ (nextOf ts).type = .plus
  · cases ts with
    | nil => rcases hsign with h | h <;> cases h
    | cons t ts =>
      rw [List.length_cons] at hvalue hloop
      obtain ⟨ts₁, hlen₁, htakes₁, hcloses₁⟩ := hvalue ts (by omega)
      obtain ⟨ts₂, hlen₂, htakes₂, hop₂, hcloses₂⟩ := hloop ts₁ (by omega)
      refine ⟨ts₂, ?_, fun fuel v => ?_, hop₂, fun ops depth h => ?_⟩
      · rw [List.length_cons]
        omega
      · revert fuel
        refine above fun fuel hfuel => ?_
        rw [List.length_cons] at hfuel
        show TakesAt (parseExprFuel (fuel + 1)) _ _ _
        rw [parseExprFuel]
        refine takes_peek ?_
        split_ifs with h1 h2
        · exact takes_consume (takes_bind (takes_weaken (htakes₁ fuel (by omega))) fun v =>
            htakes₂ fuel _ (by omega))
        · exact takes_consume (takes_bind (takes_weaken (htakes₁ fuel (by omega))) fun v =>
            htakes₂ fuel _ (by omega))
        · exact absurd hsign (not_or.mpr ⟨h1, h2⟩)
      · have hstep : (Want.expr ops depth).step t = some (.value ops depth) := by
          simp only [step, atExpr]
          rw [if_pos (show t.type = .minus ∨ t.type = .plus from hsign)]
        rw [closes_cons hstep, hcloses₁, afterValue_operator h, hcloses₂ ops depth h]
  · obtain ⟨ts₁, hlen₁, htakes₁, hcloses₁⟩ := hvalue ts (Nat.le_refl _)
    obtain ⟨ts₂, hlen₂, htakes₂, hop₂, hcloses₂⟩ := hloop ts₁ (by omega)
    refine ⟨ts₂, by omega, fun fuel v => ?_, hop₂, fun ops depth h => ?_⟩
    · revert fuel
      refine above fun fuel hfuel => ?_
      show TakesAt (parseExprFuel (fuel + 1)) _ _ _
      rw [parseExprFuel]
      refine takes_peek ?_
      rw [if_neg (not_or.mp hsign).1, if_neg (not_or.mp hsign).2]
      exact takes_bind (htakes₁ fuel (by omega)) fun v => htakes₂ fuel _ (by omega)
    · rw [← hcloses₂ ops depth h, ← afterValue_operator h, ← hcloses₁]
      cases ts with
      | nil => rfl
      | cons t ts =>
        have hstep : (Want.expr ops depth).step t = (Want.value ops depth).step t := by
          simp only [step, atExpr]
          rw [if_neg (show ¬(t.type = .minus ∨ t.type = .plus) from hsign)]
        rw [closes, closes, hstep]

/-- **Expressions.** Each recursion takes a token, or leaves the sign out. -/
theorem exprs_take (n : Nat) : ∀ ts : List Token, ts.length ≤ n →
    TakesValue ts ∧ TakesLoop ts ∧ TakesSum ts := by
  induction n with
  | zero =>
    intro ts h
    obtain rfl := List.eq_nil_of_length_eq_zero (Nat.le_zero.mp h)
    have hvalue : TakesValue [] := primary_takes nofun
    have hloop : TakesLoop [] := loop_takes nofun fun ts' h => absurd h (Nat.not_lt_zero _)
    refine ⟨hvalue, hloop, sum_takes (fun ts' h => ?_) fun ts' h => ?_⟩
    · rwa [List.eq_nil_of_length_eq_zero (Nat.le_zero.mp h)]
    · rwa [List.eq_nil_of_length_eq_zero (Nat.le_zero.mp h)]
  | succ n ih =>
    have hvalue : ∀ ts : List Token, ts.length ≤ n + 1 → TakesValue ts := by
      intro ts h
      refine primary_takes fun t ts' hts => (ih ts' ?_).2.2
      rw [hts, List.length_cons] at h
      omega
    have hloop : ∀ ts : List Token, ts.length ≤ n + 1 → TakesLoop ts := by
      intro ts h
      refine loop_takes (fun t ts' hts => (ih ts' ?_).1) fun ts' hts => (ih ts' (by omega)).2.1
      rw [hts, List.length_cons] at h
      omega
    exact fun ts h => ⟨hvalue ts h, hloop ts h,
      sum_takes (fun ts' h' => hvalue ts' (Nat.le_trans h' h)) fun ts' h' =>
        hloop ts' (Nat.le_trans h' h)⟩

/-- The fuel of a parse is enough for what the parser has in front of it. -/
theorem takes_exprFuel {k : Nat → Parse α} (h : ∀ n, 2 * ts.length + 1 < n → TakesAt (k n) ts f o) :
    TakesAt (getState >>= fun s => k (exprFuel s)) ts f o := by
  intro env p hp
  have hlen := hp.length
  exact h (exprFuel p) (by unfold exprFuel; omega) env p hp

theorem parseExpr_takes (ts : List Token) : ∃ ts', ts'.length ≤ ts.length - 1 ∧
    TakesAt parseExpr ts false (some (ts', false)) ∧ isOperator (nextOf ts') = false ∧
    closes (.expr true 0) ts = closes (.operator true 0) ts' := by
  obtain ⟨ts', hlen, htakes, hop, hcloses⟩ := (exprs_take ts.length ts (Nat.le_refl _)).2.2
  exact ⟨ts', hlen, takes_exprFuel fun n hn => htakes n 0 hn, hop, hcloses true 0 fun _ => rfl⟩

/-! ## Memory operands -/

/-- How the loop goes on when the tokens after its next component are `ts'`. -/
theorem components_next {fuel : Nat} {got : Bool} {k : α → Operand} {m : Parse α}
    (hrest : ∀ op, TakesAt (parseMemComponents fuel true op) ts' false
      ((closes (.component true) ts').map (·, true)))
    (hm : TakesAt m ts f (some (ts', false)))
    (hcloses : closes (.component got) ts = closes (.component true) ts') :
    TakesAt (m >>= fun a => parseMemComponents fuel true (k a)) ts f
      ((closes (.component got) ts).map (·, true)) := by
  rw [hcloses]
  exact takes_bind hm fun a => hrest (k a)

/-- A component that is an expression. -/
theorem closes_expr {got : Bool} {t : Token} (h : atComponent got t = some (atExpr true 0 t))
    (hrest : closes (.expr true 0) (t :: ts) = closes (.operator true 0) ts')
    (hop : isOperator (nextOf ts') = false) :
    closes (.component got) (t :: ts) = closes (.component true) ts' := by
  have hstep : closes (.component got) (t :: ts) = closes (.expr true 0) (t :: ts) := by
    rw [closes_cons (show (Want.component got).step t = _ from h)]
    exact (closes_cons rfl).symm
  rw [hstep, hrest]
  cases ts' with
  | nil => rfl
  | cons c ts' =>
    have hc : isOperator c = false := hop
    have hsame : (Want.operator true 0).step c = (Want.component true).step c := by
      simp [step, atOperator, hc]
    rw [closes, closes, hsame]

/-- A register or the expression of a component. -/
theorem component_takes {fuel : Nat} {got : Bool} {op : Operand} {t : Token}
    (hrest : ∀ ts' op, ts'.length ≤ ts.length →
      closes (.component got) (t :: ts) = closes (.component true) ts' →
        TakesAt (parseMemComponents fuel true op) ts' false
          ((closes (.component true) ts').map (·, true)))
    (hbrak : t.type ≠ .rbrak) (hplus : ¬(t.type = .plus ∧ got = true))
    (hminus : ¬(t.type = .minus ∧ got = true)) :
    TakesAt (match if t.type = .ident then findReg t.sval else none with
      | some r =>
        if r.size = .word then do
          let _ ← consume
          let op ← addMemReg op r.id
          parseMemComponents fuel true op
        else do
          let val ← parseExpr
          parseMemComponents fuel true { op with disp := toInt32 (op.disp + val), hasDisp := true }
      | none => do
        let val ← parseExpr
        parseMemComponents fuel true { op with disp := toInt32 (op.disp + val), hasDisp := true })
      (t :: ts) false ((closes (.component got) (t :: ts)).map (·, true)) := by
  have hexpr : isWordReg t = false → TakesAt (do
      let val ← parseExpr
      parseMemComponents fuel true { op with disp := toInt32 (op.disp + val), hasDisp := true })
      (t :: ts) false ((closes (.component got) (t :: ts)).map (·, true)) := by
    intro hreg
    obtain ⟨ts', hlen, htakes, hop, hcloses⟩ := parseExpr_takes (t :: ts)
    have hsame : closes (.component got) (t :: ts) = closes (.component true) ts' := by
      refine closes_expr ?_ hcloses hop
      simp only [atComponent, if_neg hbrak, if_neg hplus, if_neg hminus, hreg]
      rfl
    exact components_next (fun op => hrest ts' op hlen hsame) htakes hsame
  cases hfind : (if t.type = .ident then findReg t.sval else none) with
  | none => exact hexpr (by unfold isWordReg; rw [hfind])
  | some r =>
    simp only
    by_cases hword : r.size = .word
    · rw [if_pos hword]
      have hreg : isWordReg t = true := by
        unfold isWordReg
        rw [hfind]
        simpa using hword
      have hcloses : closes (.component got) (t :: ts) = closes (.component true) ts := by
        refine closes_cons ?_
        simp only [step, atComponent, if_neg hbrak, if_neg hplus, if_neg hminus, hreg, if_true]
      have hadd : TakesAt (addMemReg op r.id) ts true (some (ts, false)) := by
        unfold addMemReg
        split_ifs
        all_goals first
          | exact takes_weaken_out (takes_pure _)
          | exact takes_bind takes_err fun _ => takes_weaken_out (takes_pure _)
      rw [hcloses]
      exact takes_consume (takes_bind hadd fun op => hrest ts op (Nat.le_refl _) hcloses)
    · rw [if_neg hword]
      exact hexpr (by unfold isWordReg; rw [hfind]; simpa using hword)

/-- **The loop over the components ends at the closing bracket**, and without one it never ends. -/
theorem memComponents_takes (fuel : Nat) : ∀ {ts : List Token} {got : Bool} (op : Operand),
    ts.length < fuel ∨ closes (.component got) ts = none →
      TakesAt (parseMemComponents fuel got op) ts false
        ((closes (.component got) ts).map (·, true)) := by
  induction fuel with
  | zero =>
    intro ts got op h
    rw [h.resolve_left (Nat.not_lt_zero _)]
    exact takes_bind_none takes_hang fun _ _ _ hp => hp
  | succ fuel ih =>
    intro ts got op h
    rw [parseMemComponents]
    refine takes_peek ?_
    cases ts with
    | nil =>
      -- nothing is read at the end of the line
      obtain ⟨ts', hlen, htakes, -, -⟩ := parseExpr_takes []
      obtain rfl := List.eq_nil_of_length_eq_zero (Nat.le_zero.mp hlen)
      exact takes_bind htakes fun val => ih _ (.inr rfl)
    | cons t ts =>
      have hnext : nextOf (t :: ts) = t := rfl
      rw [hnext]
      by_cases hbrak : t.type = .rbrak
      · have hcloses : closes (.component got) (t :: ts) = some ts := by
          simp [closes, step, atComponent, hbrak]
        rw [if_pos hbrak, hcloses]
        exact takes_consume (takes_pure _)
      rw [if_neg hbrak]
      by_cases hplus : t.type = .plus ∧ got = true
      · have hcloses : closes (.component got) (t :: ts) = closes (.component got) ts :=
          closes_cons (by simp only [step, atComponent, if_neg hbrak, if_pos hplus])
        rw [if_pos hplus]
        rw [hcloses] at h ⊢
        refine takes_consume (takes_weaken (ih op ?_))
        exact h.imp_left fun h => Nat.lt_of_succ_lt_succ h
      rw [if_neg hplus]
      by_cases hminus : t.type = .minus ∧ got = true
      · rw [if_pos hminus]
        obtain ⟨ts', hlen, htakes, hvalue⟩ := (exprs_take ts.length ts (Nat.le_refl _)).1
        have hcloses : closes (.component got) (t :: ts) = closes (.component true) ts' := by
          have hstep : (Want.component got).step t = some (.value false 0) := by
            simp only [step, atComponent, if_neg hbrak, if_neg hplus, if_pos hminus]
          rw [closes_cons hstep, hvalue]
          rfl
        rw [hcloses] at h ⊢
        refine takes_consume (takes_exprFuel (k := fun n => parsePrimary n >>= fun val =>
          parseMemComponents fuel true { op with disp := toInt32 (op.disp - val), hasDisp := true })
          fun n hn => ?_)
        refine takes_bind (takes_weaken (htakes n (by rw [List.tail_cons] at hn; omega)))
          fun val => ih _ ?_
        refine h.imp_left fun h => ?_
        rw [List.length_cons] at h
        show ts'.length < fuel
        omega
      rw [if_neg hminus]
      refine component_takes (fun ts' op hlen hcloses => ih op ?_) hbrak hplus hminus
      rw [hcloses] at h
      refine h.imp_left fun h => ?_
      rw [List.length_cons] at h
      omega

/-- Back to an earlier place. -/
theorem takes_restore {saved : ParseState} {k : Parse β} (hsaved : Before saved ts f)
    (hk : TakesAt k ts f o) : TakesAt (restore saved >>= fun _ => k) ts' f' o := by
  intro env p _
  exact hk env { p with ptr := saved.ptr, peek := saved.peek } ⟨hsaved.stream, hsaved.fresh⟩

/-- A segment register and, without a colon, back before it. -/
theorem override_takes {saved : ParseState} (hsaved : Before saved ts false) (op op' : Operand) :
    TakesAt (do
      let _ ← consume
      let t ← peekToken
      if t.type = .colon then
        let _ ← consume
        pure op'
      else
        restore saved
        err
        pure op) ts false
      (some (if (nextOf ts.tail).type = .colon then ts.tail.tail else ts, false)) := by
  refine takes_consume (takes_peek ?_)
  split_ifs
  · exact takes_weaken_out (takes_consume (takes_pure _))
  · exact takes_restore hsaved (takes_bind takes_err fun _ => takes_pure _)

theorem parseSegOverride_takes (op : Operand) :
    TakesAt (parseSegOverride op) ts f (some (skipOverride ts, false)) := by
  refine takes_peek ?_
  unfold skipOverride isSegReg
  cases hfind : (if (nextOf ts).type = .ident then findReg (nextOf ts).sval else none) with
  | none => exact takes_pure _
  | some r =>
    simp only
    by_cases hseg : r.size = .segment
    · rw [if_pos hseg]
      simp only [hseg, beq_self_eq_true, Bool.true_and, decide_eq_true_eq]
      exact fun env p hp => override_takes hp op _ env p hp
    · rw [if_neg hseg, if_neg (by simp [hseg])]
      exact takes_pure _

/-- The rest of a memory operand, after the opening bracket. -/
theorem parseMem_takes (op : Operand) : TakesAt (parseMem op) ts f
    ((closes (.component false) (skipOverride ts)).map (·, true)) := by
  have hcomponents : ∀ (op : Operand) (ts : List Token), TakesAt (do
      let s ← getState
      let op ← parseMemComponents (s.ptr.length + 3) false op
      if op.base.isNone ∧ op.index.isNone then pure { op with hasDisp := true } else pure op)
      ts false ((closes (.component false) ts).map (·, true)) := by
    intro op ts env p hp
    have hlen := hp.length
    have hloop := @memComponents_takes (p.ptr.length + 3) ts false op
      (.inl (by omega)) env p hp
    have hsame : ∀ q : Operand × ParseState, ((if q.1.base.isNone ∧ q.1.index.isNone then
        pure { q.1 with hasDisp := true } else pure q.1 : Parse Operand) env q.2).2 = q.2 := by
      intro q
      split_ifs <;> rfl
    show Outcome p ((if _ ∧ _ then _ else _ : Parse Operand) env _).2 _
    rw [hsame]
    exact hloop
  exact takes_bind (parseSegOverride_takes op) fun op => hcomponents op _

/-! ## Operands -/

theorem acceptWord_takes (w : String) :
    TakesAt (acceptWord w) ts f (some (skipIf (isKeyword w) ts, false)) := by
  refine takes_peek ?_
  unfold skipIf isKeyword
  by_cases h : (nextOf ts).type = .ident ∧ isWord w (nextOf ts).sval = true
  · rw [if_pos h, if_pos (by simpa using h)]
    exact takes_weaken_out (takes_consume (takes_pure _))
  · rw [if_neg h, if_neg (by simpa using h)]
    exact takes_pure _

theorem checkSizePrefix_takes : TakesAt checkSizePrefix ts f
    (some (skipIf (fun t => isKeyword "byte" t || isKeyword "word" t) ts, false)) := by
  refine takes_peek ?_
  unfold skipIf isKeyword
  by_cases hb : (nextOf ts).type = .ident ∧ isWord "byte" (nextOf ts).sval = true
  · rw [if_pos hb, if_pos (by simp [hb.1, hb.2])]
    exact takes_weaken_out (takes_consume (takes_pure _))
  rw [if_neg hb]
  by_cases hw : (nextOf ts).type = .ident ∧ isWord "word" (nextOf ts).sval = true
  · rw [if_pos hw, if_pos (by simp [hw.1, hw.2])]
    exact takes_weaken_out (takes_consume (takes_pure _))
  · have hneither : ¬((((nextOf ts).type = .ident && isWord "byte" (nextOf ts).sval) ||
        ((nextOf ts).type = .ident && isWord "word" (nextOf ts).sval)) = true) := by
      simp only [Bool.or_eq_true, Bool.and_eq_true, decide_eq_true_eq]
      exact not_or.mpr ⟨hb, hw⟩
    rw [if_neg hw, if_neg hneither]
    exact takes_pure _

theorem labelOperand_takes (op : Operand) (sizePfx : Nat) (name : List Char) :
    TakesAt (labelOperand op sizePfx name) ts f (some (ts, f)) :=
  takes_map (takes_lookupLabel name) _

/-- The tokens of an operand. The parser looks ahead only where it takes nothing. -/
def operandOutcome (ts : List Token) : Option (List Token × Bool) :=
  (skipOperand ts).map (·, startsOperand (nextOf (operandStart ts)))

theorem parseOperand_takes : TakesAt parseOperand ts f (operandOutcome ts) := by
  refine takes_bind checkSizePrefix_takes fun sizePfx => ?_
  refine takes_bind (acceptWord_takes "ptr") fun _ => ?_
  refine takes_bind (acceptWord_takes "far") fun isFar => ?_
  unfold operandOutcome skipOperand
  show TakesAt _ (operandStart ts) _ _
  generalize operandStart ts = ts
  refine takes_peek ?_
  by_cases hbrak : (nextOf ts).type = .lbrak
  · have hstart : startsOperand (nextOf ts) = true := by simp [startsOperand, hbrak]
    simp only [if_pos hbrak, hstart]
    exact takes_consume (parseMem_takes _)
  rw [if_neg hbrak, if_neg hbrak]
  by_cases hident : (nextOf ts).type = .ident
  · have hstart : startsOperand (nextOf ts) = true := by simp [startsOperand, hident]
    simp only [hstart, if_true, hident, decide_true, Bool.true_and]
    have hnum : TokType.ident ≠ .number := by decide
    cases hreg : findReg (nextOf ts).sval with
    | some r =>
      refine takes_consume ?_
      cases r.size <;> exact takes_pure _
    | none =>
      simp only [if_neg hnum, Option.isNone_none, Bool.true_and]
      by_cases hseg : isWord "seg" (nextOf ts).sval = true
      · rw [if_pos hseg, if_pos hseg]
        refine takes_consume (takes_peek ?_)
        split_ifs
        · exact takes_consume fun _ _ hp => ⟨hp, rfl⟩
        · exact takes_consume (labelOperand_takes _ _ _)
      · rw [if_neg hseg, if_neg hseg]
        exact takes_consume (labelOperand_takes _ _ _)
  · simp only [if_neg hident]
    by_cases hnum : (nextOf ts).type = .number
    · have hstart : startsOperand (nextOf ts) = true := by simp [startsOperand, hnum]
      simp only [if_pos hnum, hstart, if_true, hident, decide_false, Bool.false_and]
      exact takes_consume (takes_pure _)
    · have hstart : startsOperand (nextOf ts) = false := by
        simp [startsOperand, hbrak, hident, hnum]
      simp only [if_neg hnum, hstart, hident, decide_false, Bool.false_and]
      exact takes_bind takes_err fun _ => takes_pure _

/-! ## Instructions -/

/-- A parse that ends exactly if `ok`. -/
def Settles (m : Parse α) (ts : List Token) (f ok : Bool) : Prop :=
  ∀ env p, Before p ts f → (m env p).2.hung = (p.hung || !ok)

theorem settles {ok : Bool} (h : TakesAt m ts f o) (ho : o.isSome = ok) : Settles m ts f ok := by
  intro env p hp
  have hout := h env p hp
  subst ho
  cases o with
  | none => exact hout.trans (Bool.or_true _).symm
  | some o => exact hout.2.trans (Bool.or_false _).symm

theorem operandOutcome_isSome (ts : List Token) :
    (operandOutcome ts).isSome = (skipOperand ts).isSome := Option.isSome_map ..

theorem parseOne_settles (g : Operand → Instr) :
    Settles (parseOne g) ts f (skipOperand ts).isSome :=
  settles (takes_map parseOperand_takes g) (operandOutcome_isSome ts)

theorem parseTwo_settles (g : Operand → Operand → Instr) :
    Settles (parseTwo g) ts f (skipTwo ts).isSome := by
  have hrest : ∀ (op : Operand) (ts : List Token) (f : Bool), TakesAt (do
      expect .comma
      let src ← parseOperand
      pure (g op src)) ts f (operandOutcome ts.tail) := fun op ts f =>
    takes_bind (takes_expect .comma) fun _ => takes_map parseOperand_takes _
  have hkeeps : ∀ op, Keeps (do
      expect .comma
      let src ← parseOperand
      pure (g op src)) := fun op => keeps_of_takes fun ts => ⟨_, hrest op ts false⟩
  have htakes := @parseOperand_takes ts f
  unfold operandOutcome at htakes
  unfold skipTwo
  cases hskip : skipOperand ts with
  | none =>
    rw [hskip] at htakes
    exact settles (takes_bind_none htakes hkeeps) rfl
  | some ts' =>
    rw [hskip] at htakes
    exact settles (takes_bind htakes fun op => hrest op ts' _) (operandOutcome_isSome _)

theorem parseAdjust_settles (opcode : Nat) : Settles (parseAdjust opcode) ts f true := by
  unfold parseAdjust
  by_cases h : (nextOf ts).type = .number
  · refine settles (o := some (ts.tail, true)) (takes_peek ?_) rfl
    rw [if_pos h]
    exact takes_consume (takes_pure _)
  · refine settles (o := some (ts, false)) (takes_peek ?_) rfl
    rw [if_neg h]
    exact takes_pure _

theorem parseJcc_settles (cc : Nat) : Settles (parseJcc cc) ts f (skipOperand ts).isSome :=
  fun env p hp => settles (takes_map parseOperand_takes _) (operandOutcome_isSome ts) env p hp

theorem parseRet_settles (isFar : Bool) :
    Settles (parseRet isFar) ts f (closesOperands ts .ret) := by
  unfold parseRet closesOperands
  by_cases h : (nextOf ts).type = .number ∨ (nextOf ts).type = .ident
  · refine settles (o := operandOutcome ts) (takes_peek ?_) ?_
    · rw [if_pos h]
      exact takes_map parseOperand_takes _
    · rw [operandOutcome_isSome, if_pos h]
  · refine settles (o := some (ts, false)) (takes_peek ?_) ?_
    · rw [if_neg h]
      exact takes_pure _
    · rw [if_neg h]
      rfl

theorem parseBextBins_settles (isBext : Bool) :
    Settles (parseBextBins isBext) ts f (closesOperands ts .bext) := by
  have hrest : ∀ (first : Operand) (ts : List Token) (f : Bool), TakesAt (do
      let t ← peekToken
      if t.type ≠ .comma then pure (Instr.bextBins isBext first none)
      else
        let _ ← consume
        let second ← parseOperand
        pure (Instr.bextBins isBext first (some second))) ts f
      (if (nextOf ts).type = .comma then operandOutcome ts.tail else some (ts, false)) := by
    intro first ts f
    refine takes_peek ?_
    by_cases h : (nextOf ts).type = .comma
    · rw [if_neg (not_not.mpr h), if_pos h]
      exact takes_consume (takes_map parseOperand_takes _)
    · rw [if_pos h, if_neg h]
      exact takes_pure _
  unfold parseBextBins closesOperands
  by_cases heol : (nextOf ts).type = .eol
  · refine settles (o := some (ts, false)) (takes_peek ?_) ?_
    · rw [if_pos heol]
      exact takes_pure _
    · rw [if_pos heol]
      rfl
  · have htakes := @parseOperand_takes ts false
    unfold operandOutcome at htakes
    cases hskip : skipOperand ts with
    | none =>
      rw [hskip] at htakes
      refine settles (o := none) (takes_peek ?_) ?_
      · rw [if_neg heol]
        exact takes_bind_none htakes fun op => keeps_of_takes fun ts => ⟨_, hrest op ts false⟩
      · rw [if_neg heol]
        rfl
    | some ts' =>
      rw [hskip] at htakes
      refine settles (takes_peek (o := if (nextOf ts').type = .comma then operandOutcome ts'.tail
        else some (ts', false)) ?_) ?_
      · rw [if_neg heol]
        exact takes_bind htakes fun op => hrest op ts' _
      · rw [if_neg heol]
        show _ = (if (nextOf ts').type = .comma then skipOperand ts'.tail else some ts').isSome
        split_ifs
        · exact operandOutcome_isSome _
        · rfl

/-! ## `IMUL`

The parser looks for the comma at the line pointer, so behind a token that it has looked at and that
is no operand. Then there is no operand any more. -/

/-- The parser has looked at a token that is no operand. -/
def Stuck (p : ParseState) : Prop := ∃ t, p.peek = some t ∧ startsOperand t = false

theorem parseOperand_stuck (h : Stuck p) :
    Stuck (parseOperand env p).2 ∧ (parseOperand env p).2.hung = p.hung := by
  obtain ⟨t, hp, ht⟩ := h
  obtain ⟨⟨hbrak, hnum⟩, hident⟩ : (t.type ≠ .lbrak ∧ t.type ≠ .number) ∧ t.type ≠ .ident := by
    simpa [startsOperand] using ht
  have hsize : checkSizePrefix env p = (0, p) := by
    unfold checkSizePrefix
    rw [Parse.bind_apply, peekToken_some hp]
    simp only [hident, false_and, if_false]
    rfl
  have hword : ∀ w, acceptWord w env p = (false, p) := by
    intro w
    unfold acceptWord
    rw [Parse.bind_apply, peekToken_some hp]
    simp only [hident, false_and, if_false]
    rfl
  have hrun : (parseOperand env p).2 = { p with errors := p.errors + 1 } := by
    simp only [parseOperand, Parse.bind_apply, hsize, hword, peekToken_some hp, if_neg hbrak,
      if_neg hident, if_neg hnum]
    rfl
  rw [hrun]
  exact ⟨⟨t, hp, ht⟩, rfl⟩

/-- It gets there by an operand that is none. -/
theorem stuck_of_parseOperand (h : startsOperand (nextOf (operandStart ts)) = false)
    (hp : Before p ts f) :
    Stuck (parseOperand env p).2 ∧ (parseOperand env p).2.hung = p.hung := by
  obtain ⟨h₁, hhung₁⟩ := checkSizePrefix_takes env p hp
  obtain ⟨h₂, hhung₂⟩ := acceptWord_takes "ptr" env _ h₁
  obtain ⟨h₃, hhung₃⟩ := acceptWord_takes "far" env _ h₂
  obtain ⟨htok, -, hhung₄, hpeek⟩ := @peekToken_before env _ _ _ h₃
  have hstart : startsOperand (nextOf (operandStart ts)) = false := h
  obtain ⟨⟨hbrak, hnum⟩, hident⟩ : ((nextOf (operandStart ts)).type ≠ .lbrak ∧
      (nextOf (operandStart ts)).type ≠ .number) ∧ (nextOf (operandStart ts)).type ≠ .ident := by
    simpa [startsOperand] using h
  have hnext : (peekToken env (acceptWord "far" env (acceptWord "ptr" env
      (checkSizePrefix env p).2).2).2).1 = nextOf (operandStart ts) := htok
  have hrun : (parseOperand env p).2 = (err env (peekToken env (acceptWord "far" env
      (acceptWord "ptr" env (checkSizePrefix env p).2).2).2).2).2 := by
    simp only [parseOperand, Parse.bind_apply, hnext, if_neg hbrak, if_neg hident, if_neg hnum]
    rfl
  rw [hrun]
  exact ⟨⟨_, hpeek, hstart⟩, hhung₄.trans (hhung₃.trans (hhung₂.trans hhung₁))⟩

/-- Where a parse with more operands is stuck it ends. -/
def EndsStuck (m : Parse α) : Prop := ∀ env p, Stuck p → (m env p).2.hung = p.hung

/-- One operand, and more behind a comma. -/
def parseMore (k : Operand → Parse Instr) (g : Operand → Instr) : Parse Instr := do
  let op ← parseOperand
  let save ← getState
  let t ← nextTokenRaw
  if t.type = .comma then k op
  else
    restorePtr save
    pure (g op)

theorem parseMore_stuck {k : Operand → Parse Instr} (hk : ∀ op, EndsStuck (k op))
    (g : Operand → Instr) : EndsStuck (parseMore k g) := by
  intro env p hp
  obtain ⟨⟨t, hpeek, ht⟩, hhung⟩ := @parseOperand_stuck env p hp
  unfold parseMore
  rw [Parse.bind_apply, ← hhung]
  generalize (parseOperand env p).1 = op
  generalize (parseOperand env p).2 = r at hpeek hhung
  show ((nextTokenRaw >>= fun t => if t.type = .comma then k op else
    restorePtr r >>= fun _ => pure (g op)) env r).2.hung = r.hung
  rw [Parse.bind_apply]
  split_ifs
  · exact hk op env (nextTokenRaw env r).2 ⟨t, hpeek, ht⟩
  · rfl

theorem parseMore_settles {k : Operand → Parse Instr} {n : Nat} (hstuck : ∀ op, EndsStuck (k op))
    (hk : ∀ op ts f, Settles (k op) ts f (skipMore n ts).isSome) (g : Operand → Instr) :
    Settles (parseMore k g) ts f (skipMore (n + 1) ts).isSome := by
  intro env p hp
  unfold parseMore
  rw [Parse.bind_apply]
  cases hstart : startsOperand (nextOf (operandStart ts)) with
  | false =>
    obtain ⟨⟨t, hpeek, ht⟩, hhung⟩ := @stuck_of_parseOperand env p ts f hstart hp
    rw [skipMore, if_neg (by rw [hstart]; decide), ← hhung]
    generalize (parseOperand env p).1 = op
    generalize (parseOperand env p).2 = r at hpeek hhung
    show ((nextTokenRaw >>= fun t => if t.type = .comma then k op else
      restorePtr r >>= fun _ => pure (g op)) env r).2.hung = _
    rw [Parse.bind_apply, Option.isSome_some, Bool.not_true, Bool.or_false]
    split_ifs
    · exact hstuck op env (nextTokenRaw env r).2 ⟨t, hpeek, ht⟩
    · rfl
  | true =>
    have hout := @parseOperand_takes ts f env p hp
    unfold operandOutcome at hout
    rw [skipMore, if_pos hstart]
    generalize (parseOperand env p).1 = op
    generalize (parseOperand env p).2 = r at hout
    show ((nextTokenRaw >>= fun t => if t.type = .comma then k op else
      restorePtr r >>= fun _ => pure (g op)) env r).2.hung = _
    rw [Parse.bind_apply]
    cases hskip : skipOperand ts with
    | none =>
      rw [hskip] at hout
      have hr : r.hung = true := hout
      have hkeeps : Keeps (k op) := by
        intro env p hp
        obtain ⟨ts, hts⟩ := exists_before p
        rw [hk op ts false env p hts, hp]
        rfl
      rw [Option.bind_none]
      split_ifs
      · rw [hkeeps env _ (show (nextTokenRaw env r).2.hung = true from hr)]
        exact (Bool.or_true _).symm
      · exact hr.trans (Bool.or_true _).symm
    | some ts' =>
      rw [hskip, hstart] at hout
      obtain ⟨hnext, hhung⟩ : Before r ts' true ∧ r.hung = p.hung := hout
      obtain ⟨htok, hrest⟩ := @nextTokenRaw_before env r ts' hnext
      rw [htok, Option.bind_some, ← hhung]
      split_ifs
      · exact hk op _ true env _ hrest
      · exact (Bool.or_false _).symm

theorem parseImul_settles : Settles parseImul ts f (skipMore 2 ts).isSome := by
  have hlast : ∀ (dst src : Operand), (∀ ts f, Settles (parseOperand >>= fun imm =>
      pure (Instr.imulImm dst.reg src.reg imm.imm)) ts f (skipMore 0 ts).isSome) ∧
      EndsStuck (parseOperand >>= fun imm => pure (Instr.imulImm dst.reg src.reg imm.imm)) :=
    fun dst src => ⟨fun ts f => settles (takes_map parseOperand_takes _) (operandOutcome_isSome ts),
      fun env p hp => (parseOperand_stuck hp).2⟩
  have hmore : ∀ dst : Operand, (∀ ts f, Settles (parseMore (fun src => parseOperand >>= fun imm =>
      pure (Instr.imulImm dst.reg src.reg imm.imm)) fun src => .imulImm dst.reg dst.reg src.imm)
      ts f (skipMore 1 ts).isSome) ∧ EndsStuck (parseMore (fun src => parseOperand >>= fun imm =>
      pure (Instr.imulImm dst.reg src.reg imm.imm)) fun src => .imulImm dst.reg dst.reg src.imm) :=
    fun dst => ⟨fun ts f => parseMore_settles (fun src => (hlast dst src).2)
      (fun src => (hlast dst src).1) _, parseMore_stuck (fun src => (hlast dst src).2) _⟩
  exact parseMore_settles (fun dst => (hmore dst).2) (fun dst => (hmore dst).1) (.group3 5)

/-! ## All instructions -/

theorem settles_pure (a : α) : Settles (pure a) ts f true := settles (takes_pure a) rfl

theorem settles_onTable {α : Type} {table : List (String × α)} {mnemonic : List Char}
    {g : α → Parse Instr} {otherwise : Parse Instr} {ops rest : Operands}
    (hg : ∀ x, Settles (g x) ts f (closesOperands ts ops))
    (h : Settles otherwise ts f (closesOperands ts rest)) :
    Settles (onTable table mnemonic g otherwise) ts f
      (closesOperands ts (ofTable table mnemonic ops rest)) := by
  unfold onTable ofTable
  cases lookupWord table mnemonic with
  | some x => exact hg x
  | none => exact h

theorem settles_onWord {w : String} {mnemonic : List Char} {m otherwise : Parse Instr}
    {ops rest : Operands} (hm : Settles m ts f (closesOperands ts ops))
    (h : Settles otherwise ts f (closesOperands ts rest)) :
    Settles (onWord w mnemonic m otherwise) ts f
      (closesOperands ts (ofWord w mnemonic ops rest)) := by
  unfold onWord ofWord
  split_ifs
  · exact hm
  · exact h

theorem parsePlain_settles (m : List Char) :
    Settles (parsePlain m) ts f (closesOperands ts (operandsOf m)) := by
  have hone : ∀ g : Operand → Instr, Settles (parseOne g) ts f (closesOperands ts .one) :=
    parseOne_settles
  have htwo : ∀ g : Operand → Operand → Instr, Settles (parseTwo g) ts f (closesOperands ts .two) :=
    parseTwo_settles
  have hnone : ∀ i : Instr, Settles (pure i) ts f (closesOperands ts .none) := settles_pure
  refine settles_onTable (fun _ => hnone _) ?_
  refine settles_onTable parseAdjust_settles ?_
  refine settles_onTable (fun _ => htwo _) ?_
  refine settles_onTable (fun _ => htwo _) ?_
  refine settles_onWord (htwo _) ?_
  refine settles_onWord (htwo _) ?_
  refine settles_onWord (htwo _) ?_
  refine settles_onWord (htwo _) ?_
  refine settles_onTable (fun _ => htwo _) ?_
  refine settles_onTable (fun _ => hone _) ?_
  refine settles_onTable (fun _ => hone _) ?_
  refine settles_onWord parseImul_settles ?_
  refine settles_onWord (hone _) ?_
  refine settles_onWord (hone _) ?_
  refine settles_onWord (hone _) ?_
  refine settles_onWord (hone _) ?_
  refine settles_onTable parseJcc_settles ?_
  refine settles_onTable (fun _ => hone _) ?_
  refine settles_onWord (parseRet_settles _) ?_
  refine settles_onWord (parseRet_settles _) ?_
  refine settles_onWord (hone _) ?_
  refine settles_onWord (htwo _) ?_
  refine settles_onWord (htwo _) ?_
  refine settles_onWord (htwo _) ?_
  refine settles_onTable (fun _ => htwo _) ?_
  refine settles_onTable (fun _ => hnone _) ?_
  refine settles_onWord (parseBextBins_settles _) ?_
  refine settles_onWord (parseBextBins_settles _) ?_
  exact settles_onWord (hone _) (hnone _)

theorem settles_peek {ok : Bool} {k : Token → Parse β} (h : Settles (k (nextOf ts)) ts false ok) :
    Settles (peekToken >>= k) ts f ok := by
  intro env p hp
  obtain ⟨htok, hnext, hhung, -⟩ := @peekToken_before env p ts f hp
  rw [Parse.bind_apply, htok, h env _ hnext, hhung]

theorem settles_consume {ok : Bool} {k : Token → Parse β}
    (h : Settles (k (nextOf ts)) ts.tail true ok) : Settles (consume >>= k) ts f ok := by
  intro env p hp
  obtain ⟨htok, hnext, hhung⟩ := @consume_before env p ts f hp
  rw [Parse.bind_apply, htok, h env _ hnext, hhung]

theorem settles_map {ok : Bool} (h : Settles m ts f ok) (g : α → β) :
    Settles (m >>= fun a => pure (g a)) ts f ok := h

/-- A prefix takes the mnemonic behind it. -/
theorem parseInstr_settles : ∀ {fuel : Nat} {t : Token} {ts : List Token} {f : Bool},
    ts.length < fuel → Settles (parseInstr fuel t.sval) ts f (closesInstr (t :: ts))
  | 0, _, _, _, h => absurd h (Nat.not_lt_zero _)
  | fuel + 1, t, ts, f, h => by
    rw [parseInstr, closesInstr]
    cases lookupWord prefixTable t.sval with
    | none => exact parsePlain_settles _
    | some byte =>
      refine settles_peek ?_
      by_cases hident : (nextOf ts).type = .ident
      · rw [if_pos hident]
        simp only [if_pos hident]
        cases ts with
        | nil => cases hident
        | cons t' ts =>
          refine settles_consume (settles_map ?_ _)
          exact parseInstr_settles (Nat.lt_of_succ_lt_succ h)
      · rw [if_neg hident]
        simp only [if_neg hident]
        exact settles_pure _

/-! ## Lines -/

theorem parseExpr_settles : Settles parseExpr ts f true := by
  obtain ⟨ts', -, htakes, -⟩ := parseExpr_takes ts
  exact settles (takes_weaken htakes) rfl

theorem settles_bind {ok : Bool} {o' : List Token × Bool} (h : TakesAt m ts f (some o'))
    (hk : ∀ a, Settles (k a) o'.1 o'.2 ok) : Settles (m >>= k) ts f ok := by
  intro env p hp
  obtain ⟨hnext, hhung⟩ := h env p hp
  rw [Parse.bind_apply, hk _ env _ hnext, hhung]

/-- The fuel of a loop over the line is more than there are tokens. -/
theorem settles_getState {ok : Bool} {k : ParseState → Parse β}
    (h : ∀ s, ts.length < s.ptr.length + 1 → Settles (k s) ts true ok) :
    Settles (getState >>= k) ts true ok :=
  fun env p hp => h p (Nat.lt_succ_of_le hp.length_fresh) env p hp

theorem tail_length {t : TokType} (h : (nextOf ts).type = t) (ht : t ≠ .eol) :
    ts.tail.length < ts.length := by
  cases ts with
  | nil => exact absurd h.symm ht
  | cons t ts => exact Nat.lt_succ_self _

/-- An item of a `db` list takes at least a token. -/
theorem parseDbItem_takes (ts : List Token) : ∃ ts', ∀ env p f, Before p ts f →
    Before (parseDbItem env p).2 ts' false ∧ (parseDbItem env p).2.hung = p.hung ∧
      ((parseDbItem env p).1.isSome = true → ts'.length < ts.length) := by
  by_cases hstr : (nextOf ts).type = .string
  · have htakes : ∀ f, TakesAt parseDbItem ts f (some (ts.tail, false)) := by
      intro f
      refine takes_peek ?_
      rw [if_pos hstr]
      exact takes_weaken_out (takes_consume (takes_pure _))
    exact ⟨ts.tail, fun env p f hp => ⟨(htakes f env p hp).1, (htakes f env p hp).2,
      fun _ => tail_length hstr (by decide)⟩⟩
  by_cases hval : (nextOf ts).type = .number ∨ (nextOf ts).type = .ident ∨
      (nextOf ts).type = .minus
  · obtain ⟨ts', hlen, hexpr, -⟩ := parseExpr_takes ts
    have htakes : ∀ f, TakesAt parseDbItem ts f (some (ts', false)) := by
      intro f
      refine takes_peek ?_
      rw [if_neg hstr, if_pos hval]
      exact takes_map hexpr fun val => some [toByte val]
    have hlt : ts.tail.length < ts.length := by
      rcases hval with h | h | h <;> exact tail_length h (by decide)
    rw [List.length_tail] at hlt
    exact ⟨ts', fun env p f hp => ⟨(htakes f env p hp).1, (htakes f env p hp).2,
      fun _ => Nat.lt_of_le_of_lt hlen hlt⟩⟩
  · have htakes : ∀ f, TakesAt parseDbItem ts f (some (ts, false)) := by
      intro f
      refine takes_peek ?_
      rw [if_neg hstr, if_neg hval]
      exact takes_pure _
    refine ⟨ts, fun env p f hp => ⟨(htakes f env p hp).1, (htakes f env p hp).2, fun h => ?_⟩⟩
    unfold parseDbItem at h
    rw [Parse.bind_apply, (peekToken_before hp).1, if_neg hstr, if_neg hval] at h
    cases h

theorem parseDb_settles : ∀ {fuel : Nat} {ts : List Token} {f : Bool}, ts.length < fuel →
    Settles (parseDb fuel) ts f true
  | 0, _, _, h => absurd h (Nat.not_lt_zero _)
  | fuel + 1, ts, f, h => by
    obtain ⟨ts', hitem⟩ := parseDbItem_takes ts
    intro env p hp
    obtain ⟨hnext, hhung, hlen⟩ := hitem env p f hp
    rw [parseDb, Parse.bind_apply]
    cases hsome : (parseDbItem env p).1 with
    | none => exact hhung.trans (Bool.or_false _).symm
    | some bs =>
      rw [hsome] at hlen
      have hlt := hlen rfl
      rw [← hhung]
      refine @settles_peek ts' false _ _ _ ?_ env _ hnext
      split_ifs
      · refine settles_consume (settles_map (parseDb_settles ?_) _)
        rw [List.length_tail]
        omega
      · exact settles_pure _

theorem parseDw_settles : ∀ {fuel : Nat} {ts : List Token} {f : Bool}, ts.length < fuel →
    Settles (parseDw fuel) ts f true
  | 0, _, _, h => absurd h (Nat.not_lt_zero _)
  | fuel + 1, ts, f, h => by
    rw [parseDw]
    refine settles_peek ?_
    split_ifs with hval
    · obtain ⟨ts', hlen, hexpr, -⟩ := parseExpr_takes ts
      refine settles_bind hexpr fun val => settles_peek ?_
      split_ifs
      · refine settles_consume (settles_map (parseDw_settles ?_) _)
        rw [List.length_tail]
        show ts'.length - 1 < fuel
        have hlt : ts.tail.length < ts.length := by
          rcases hval with h | h | h <;> exact tail_length h (by decide)
        rw [List.length_tail] at hlt
        omega
      · exact settles_pure _
    · exact settles_pure _

theorem parseStatement_settles : Settles parseStatement ts f (closesStatement ts) := by
  unfold parseStatement closesStatement
  refine settles_peek ?_
  by_cases heol : (nextOf ts).type = .eol
  · rw [if_pos heol, if_pos (by rw [heol]; decide)]
    exact settles_pure _
  rw [if_neg heol]
  refine settles_consume (settles_getState fun s hlen => ?_)
  by_cases hident : (nextOf ts).type = .ident
  · have hoperand : ∀ g : Operand → Statement, Settles (parseOperand >>= fun op => pure (g op))
        ts.tail true (skipOperand ts.tail).isSome := fun g =>
      settles (takes_map parseOperand_takes g) (operandOutcome_isSome _)
    rw [if_neg (not_not.mpr hident)]
    simp only [if_neg (not_not.mpr hident), Bool.or_eq_true]
    by_cases horg : isWord "org" (nextOf ts).sval = true
    · rw [if_pos horg, if_pos horg]
      exact hoperand _
    rw [if_neg horg, if_neg horg]
    by_cases hendorg : isWord "endorg" (nextOf ts).sval = true
    · rw [if_pos hendorg, if_pos (.inl (.inl hendorg))]
      exact settles_pure _
    rw [if_neg hendorg]
    by_cases hdb : isWord "db" (nextOf ts).sval = true
    · rw [if_pos hdb, if_pos (.inl (.inr hdb))]
      exact settles_map (parseDb_settles hlen) _
    rw [if_neg hdb]
    by_cases hdw : isWord "dw" (nextOf ts).sval = true
    · rw [if_pos hdw, if_pos (.inr hdw)]
      exact settles_map (parseDw_settles hlen) _
    have hother := not_or.mpr ⟨not_or.mpr ⟨hendorg, hdb⟩, hdw⟩
    rw [if_neg hdw]
    by_cases hseg : isWord "seg" (nextOf ts).sval = true
    · rw [if_pos hseg, if_neg hother, if_pos hseg]
      exact hoperand _
    rw [if_neg hseg, if_neg hother, if_neg hseg]
    cases ts with
    | nil => cases hident
    | cons t ts => exact settles_map (parseInstr_settles hlen) _
  · rw [if_pos hident, if_pos hident]
    exact settles_bind takes_err fun _ => settles_pure _

/-- **A line is read to an end exactly if its memory operands are closed.** Without the closing
bracket the loop over the components has no end, whatever it is bounded by. -/
theorem line_finishes_iff (env : Env) (text : List Char) :
    (LineFinishes env text ↔ ClosedLine text) ∧
      ∀ (fuel : Nat) (got : Bool) (op : Operand) (p : ParseState), p.peek = none →
        closes (.component got) (tokens p.ptr) = none →
          (parseMemComponents fuel got op env p).2.hung = true := by
  constructor
  · have hequ : ∀ expr, (parseExpr env { ptr := expr }).2.hung = false := fun expr =>
      parseExpr_settles env _ (before_start expr)
    have hstmt := parseStatement_settles env _ (before_start (splitLine text).2)
    unfold LineFinishes ClosedLine
    rw [hstmt, Bool.false_or, Bool.not_eq_false']
    exact ⟨fun h => h.2, fun h => ⟨fun _ expr _ => hequ expr, h⟩⟩
  · intro fuel got op p hp hopen
    have hout := @memComponents_takes fuel (tokens p.ptr) _ op (.inr hopen) env p
      ⟨(by unfold Stream; rw [hp]), nofun⟩
    rwa [hopen] at hout

theorem openBracket_hangs :
    ¬LineFinishes { labels := [], pass2 := false } "mov ax, [bx".toList := by
  intro h
  have hhung := h.2
  revert hhung
  decide

theorem closedBracket_finishes :
    LineFinishes { labels := [], pass2 := false } "mov ax, [bx]".toList :=
  (line_finishes_iff { labels := [], pass2 := false } "mov ax, [bx]".toList).1.mpr
    (by decide)

end Nib.Asm
