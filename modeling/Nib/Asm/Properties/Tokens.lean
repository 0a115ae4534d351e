import Nib.Asm.Properties.Data

/-!
# The tokens of a line

* `nextToken_length` — a token before the end of the line takes at least one character
* `tokens_cons` — the tokens of a line are read one after the other
-/

namespace Nib.Asm

variable {s : List Char}

/-! ## The tokenizer -/

theorem dropWhile_length_le (p : Char → Bool) (s : List Char) :
    (s.dropWhile p).length ≤ s.length := (List.dropWhile_sublist p).length_le

theorem skipWs_length (s : List Char) : (skipWs s).length ≤ s.length := dropWhile_length_le _ s

theorem skipWs_atEnd (h : atEnd s = true) :
    skipWs s = [] ∨ ∃ c rest, skipWs s = c :: rest ∧ (c = '\n' ∨ c = ';') := by
  unfold atEnd at h
  cases hs : skipWs s with
  | nil => exact .inl rfl
  | cons c rest =>
    rw [hs] at h
    exact .inr ⟨c, rest, rfl, by simpa using h⟩

theorem skipWs_not_atEnd (h : atEnd s = false) :
    ∃ c rest, skipWs s = c :: rest ∧ c ≠ '\n' ∧ c ≠ ';' := by
  unfold atEnd at h
  cases hs : skipWs s with
  | nil =>
    rw [hs] at h
    cases h
  | cons c rest =>
    rw [hs] at h
    exact ⟨c, rest, rfl, by simpa using h⟩

theorem skipWs_twice (s : List Char) : skipWs (skipWs s) = skipWs s := by
  unfold skipWs
  induction s with
  | nil => rfl
  | cons c s ih =>
    rw [List.dropWhile_cons]
    split_ifs with h
    · exact ih
    · exact List.dropWhile_cons_of_neg h

/-- At the end of the line the tokenizer stays there. -/
theorem nextToken_atEnd (h : atEnd s = true) :
    (nextToken s).1 = eolToken ∧ atEnd (nextToken s).2.1 = true ∧ (nextToken s).2.2 = 0 := by
  rcases skipWs_atEnd h with hs | ⟨c, rest, hs, hc⟩
  · rw [nextToken, hs]
    exact ⟨rfl, rfl, rfl⟩
  · have hskip := skipWs_twice s
    rw [hs] at hskip
    rw [nextToken, hs]
    simp only [Bool.or_eq_true, decide_eq_true_eq, if_pos hc]
    refine ⟨rfl, ?_, trivial⟩
    unfold atEnd
    rw [hskip]
    simpa using hc

theorem scanString_length (delim : Char) : ∀ (room : Nat) (s : List Char),
    (scanString delim room s).2.length ≤ s.length
  | 0, _ => Nat.le_refl _
  | _ + 1, [] => Nat.le_refl _
  | room + 1, [c] => by
    have hle := scanString_length delim room []
    simp only [scanString]
    split_ifs
    · exact Nat.le_refl _
    · exact Nat.zero_le _
    · exact Nat.le_trans hle (Nat.zero_le _)
  | room + 1, c :: e :: s => by
    have hle := scanString_length delim room s
    have hle' := scanString_length delim room (e :: s)
    simp only [scanString]
    split_ifs <;> simp only [List.length_cons] at * <;> omega

theorem dropDelim_length (delim : Char) (rest : List Char) :
    (match rest with
      | c :: rest' => if c = delim then rest' else c :: rest'
      | [] => []).length ≤ rest.length := by
  cases rest with
  | nil => exact Nat.le_refl _
  | cons c rest' =>
    simp only
    split_ifs
    · exact Nat.le_succ _
    · exact Nat.le_refl _

theorem lexQuoted_length (delim : Char) (s : List Char) :
    (lexQuoted delim s).2.length ≤ s.length := by
  have hscan := scanString_length delim 126 s
  simp only [lexQuoted]
  generalize scanString delim 126 s = r at hscan
  obtain ⟨body, rest⟩ := r
  have hrest := Nat.le_trans (dropDelim_length delim rest) hscan
  split
  · split_ifs <;> exact hrest
  · exact hrest

theorem skipHexPrefix_length (base : Nat) (s : List Char) :
    (skipHexPrefix base s).length ≤ s.length := by
  unfold skipHexPrefix
  split
  · split_ifs
    · simp only [List.length_cons]
      omega
    · exact Nat.le_refl _
  · exact Nat.le_refl _

theorem strtolSign_length (s : List Char) : (strtolSign s).2.length ≤ s.length := by
  unfold strtolSign
  split
  · exact Nat.le_succ _
  · exact Nat.le_succ _
  · exact Nat.le_refl _

theorem strtol_length (base : Nat) (s : List Char) : (strtol base s).2.length ≤ s.length := by
  rw [strtol_sign]
  dsimp only
  by_cases h : ((skipHexPrefix base (strtolSign (s.dropWhile isSpace)).2).takeWhile
      (isBaseDigit base)).isEmpty = true
  · refine Nat.le_of_eq ?_
    rw [if_pos h]
  · rw [if_neg h]
    calc ((skipHexPrefix base (strtolSign (s.dropWhile isSpace)).2).dropWhile
          (isBaseDigit base)).length
        ≤ (skipHexPrefix base (strtolSign (s.dropWhile isSpace)).2).length :=
          dropWhile_length_le _ _
      _ ≤ (strtolSign (s.dropWhile isSpace)).2.length := skipHexPrefix_length _ _
      _ ≤ (s.dropWhile isSpace).length := strtolSign_length _
      _ ≤ s.length := dropWhile_length_le _ _

theorem lexNumber_length {c : Char} (h : c.isDigit = true) (s : List Char) :
    (lexNumber (c :: s)).2.length ≤ s.length := by
  have hx : isXDigit c = true := by
    unfold isXDigit
    rw [h]
    rfl
  unfold lexNumber
  simp only
  split
  · rename_i rest heq
    have hrest : rest.length ≤ s.length := by
      split at heq
      · rename_i hcons
        obtain ⟨-, rfl⟩ := List.cons.inj hcons
        split_ifs at heq
        obtain rfl := Option.some.inj heq
        exact Nat.le_succ _
      · cases heq
    exact Nat.le_trans (strtol_length 16 rest) hrest
  · have hdrop := dropWhile_length_le isXDigit s
    rw [List.dropWhile_cons_of_pos hx]
    split
    · exact Nat.zero_le _
    · rename_i d rest hd
      rw [hd, List.length_cons] at hdrop
      split_ifs
      · exact Nat.le_of_succ_le hdrop
      · exact hdrop

theorem isIdentChar_of_start {c : Char} (h : isIdentStart c = true) : isIdentChar c = true := by
  simp only [isIdentStart, isIdentChar, Char.isAlphanum, Bool.or_eq_true] at *
  tauto

theorem lexIdent_length {c : Char} (h : isIdentStart c = true) (s : List Char) :
    (lexIdent (c :: s)).2.length ≤ s.length := by
  have hc := isIdentChar_of_start h
  simp only [lexIdent, List.take_succ_cons, List.takeWhile_cons_of_pos hc, List.length_cons,
    List.drop_succ_cons, List.length_drop]
  omega

theorem nextToken_length (h : atEnd s = false) : (nextToken s).2.1.length < s.length := by
  obtain ⟨c, rest, hs, hn, hc⟩ := skipWs_not_atEnd h
  have hle := skipWs_length s
  rw [hs, List.length_cons] at hle
  refine Nat.lt_of_le_of_lt ?_ hle
  have hor : ¬(c = '\n' ∨ c = ';') := by
    rintro (rfl | rfl)
    · exact hn rfl
    · exact hc rfl
  rw [nextToken, hs]
  simp only [Bool.or_eq_true, decide_eq_true_eq, if_neg hor]
  cases punct c with
  | some _ => exact Nat.le_refl _
  | none =>
    simp only
    split_ifs with hq hd hi
    · exact lexQuoted_length c rest
    · exact lexNumber_length hd rest
    · exact lexIdent_length hi rest
    · exact Nat.le_refl _

/-! ## Tokens -/

theorem tokensFuel_eq : ∀ {fuel : Nat} {s : List Char}, s.length ≤ fuel →
    tokensFuel fuel s = tokensFuel (fuel + 1) s
  | 0, s, h => by
    obtain rfl := List.eq_nil_of_length_eq_zero (Nat.le_zero.mp h)
    rfl
  | fuel + 1, s, h => by
    rw [tokensFuel, tokensFuel]
    cases he : atEnd s with
    | true => rfl
    | false =>
      have hlt := nextToken_length he
      rw [tokensFuel_eq (by omega)]

theorem tokensFuel_enough {s : List Char} {fuel : Nat} (h : s.length ≤ fuel) :
    tokensFuel fuel s = tokens s := by
  obtain ⟨k, rfl⟩ := Nat.exists_eq_add_of_le h
  clear h
  induction k with
  | zero => rfl
  | succ k ih =>
    rw [← Nat.add_assoc, ← tokensFuel_eq (Nat.le_add_right _ _)]
    exact ih

theorem tokens_atEnd (h : atEnd s = true) : tokens s = [] := by
  unfold tokens
  cases s.length with
  | zero => rfl
  | succ n => rw [tokensFuel, if_pos h]

theorem tokens_cons (h : atEnd s = false) :
    tokens s = (nextToken s).1 :: tokens (nextToken s).2.1 := by
  have hlt := nextToken_length h
  rw [← tokensFuel_enough (Nat.le_succ s.length), tokensFuel, if_neg (by rw [h]; decide),
    tokensFuel_enough (Nat.le_of_lt hlt)]

theorem tokens_length (s : List Char) : (tokens s).length ≤ s.length := by
  unfold tokens
  have hle : ∀ (fuel : Nat) (s : List Char), (tokensFuel fuel s).length ≤ fuel := by
    intro fuel
    induction fuel with
    | zero => exact fun _ => Nat.le_refl _
    | succ fuel ih =>
      intro s
      rw [tokensFuel]
      split_ifs
      · exact Nat.zero_le _
      · exact Nat.succ_le_succ (ih _)
  exact hle _ _

end Nib.Asm
