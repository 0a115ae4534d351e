import Nib.Bind.Spec.Strings
import Nib.Bind.Properties.Globals
import Nib.Asm.Properties.Data

/-!
# String literals

* `dbItems_bytes` — the list of a constant, up to where the buffer is full
* `parseDb_bytes` — the bytes of the list, up to an apostrophe
* `stringLine_bytes` — the bytes of a literal are those of the source, up to there
* `string_intact` — when they are the characters of the literal
-/

namespace Nib.Bind

open Nib.Asm Nib.Compile Infra

/-! ## The list of a constant -/

/-- A byte in a list. -/
def itemText (b : Nat) : Text :=
  if IsPrinted b then ['\'', Char.ofNat b, '\''] else '0' :: 'x' :: printHex 2 b

/-- The bytes of a list, from a position on. -/
def listText : Bool → List Nat → Text
  | _, [] => []
  | first, b :: bytes => (if first then [] else [',', ' ']) ++ itemText b ++ listText false bytes

/-- The position after a byte. -/
def nextPos (first : Bool) (pos b : Nat) : Nat := pos + (if first then 0 else 2) + itemWidth b

/-- The bytes for which there is room. -/
def printedBytes : Bool → Nat → List Nat → List Nat
  | _, _, [] => []
  | first, pos, b :: bytes =>
    if 246 ≤ pos then [] else b :: printedBytes false (nextPos first pos b) bytes

/-- The position after all bytes. -/
def endPos : Bool → Nat → List Nat → Nat
  | _, pos, [] => pos
  | first, pos, b :: bytes => endPos false (nextPos first pos b) bytes

theorem dbItems_full (first : Bool) {pos : Nat} (h : 246 ≤ pos) (text : Text) :
    dbItems first pos text = [] := by
  cases text with
  | nil => rfl
  | cons c text => rw [dbItems.eq_def]; exact if_pos h

theorem dbItems_char (first : Bool) {pos : Nat} (h : pos < 246) {c : Char} (hc : c ≠ '\\')
    (text : Text) :
    dbItems first pos (c :: text) =
      (if first then [] else [',', ' ']) ++ ['\'', c, '\''] ++
        dbItems false (pos + (if first then 0 else 2) + 3) text := by
  rw [dbItems.eq_def]
  simp only [if_neg (Nat.not_le.mpr h)]
  split
  · rename_i heq
    exact absurd rfl hc
  · cases first <;> rfl

theorem dbItems_hex (first : Bool) {pos : Nat} (h : pos < 246) (a b : Char) (text : Text) :
    dbItems first pos ('\\' :: 'x' :: a :: b :: text) =
      (if first then [] else [',', ' ']) ++ ['0', 'x', a, b] ++
        dbItems false (pos + (if first then 0 else 2) + 4) text := by
  rw [dbItems.eq_def]
  simp only [if_neg (Nat.not_le.mpr h)]
  cases first <;> rfl

theorem printHex_two {b : Nat} (h : b < 256) : ∃ x y, printHex 2 b = [x, y] := by
  have hle : (Nat.toDigits 16 b).length ≤ 2 :=
    (Nat.length_toDigits_le_iff (by decide) (by decide)).mpr (by omega)
  have hlen : (printHex 2 b).length = 2 := by
    rw [printHex, List.length_append, List.length_replicate, List.length_map]
    omega
  exact List.length_eq_two.mp hlen

theorem toNat_ofNat_of_isPrinted {b : Nat} (h : IsPrinted b) : (Char.ofNat b).toNat = b := by
  have hall : ∀ n < 0x7F, (Char.ofNat n).toNat = n := by decide
  exact hall b h.2.1

theorem ofNat_ne_of_isPrinted {b : Nat} (h : IsPrinted b) : Char.ofNat b ≠ '\\' := by
  intro heq
  have hnat := toNat_ofNat_of_isPrinted h
  rw [heq] at hnat
  exact h.2.2.2 hnat.symm

/-- One byte of a `.const` line. -/
theorem dbItems_byte (first : Bool) {pos b : Nat} (hpos : pos < 246) (hb : b < 256) (text : Text) :
    dbItems first pos (nirChar b ++ text) =
      (if first then [] else [',', ' ']) ++ itemText b ++
        dbItems false (nextPos first pos b) text := by
  unfold nirChar itemText nextPos itemWidth
  by_cases h : IsPrinted b
  · rw [if_pos h, if_pos h, if_pos h]
    exact dbItems_char first hpos (ofNat_ne_of_isPrinted h) text
  · rw [if_neg h, if_neg h, if_neg h]
    obtain ⟨x, y, hxy⟩ := printHex_two hb
    rw [hxy]
    exact dbItems_hex first hpos x y text

theorem le_endPos : ∀ (first : Bool) (pos : Nat) (bytes : List Nat), pos ≤ endPos first pos bytes
  | _, _, [] => Nat.le_refl _
  | first, pos, b :: bytes => by
    have ih := le_endPos false (nextPos first pos b) bytes
    have hnext : pos ≤ nextPos first pos b := by
      rw [nextPos, Nat.add_assoc]
      exact Nat.le_add_right _ _
    exact Nat.le_trans hnext ih

/-- **The list of a constant.** What follows the bytes does not matter when they fill the buffer. -/
theorem dbItems_bytes : ∀ (first : Bool) (pos : Nat) {bytes : List Nat} {tail : Text},
    (∀ b ∈ bytes, b < 256) → tail = [] ∨ 246 ≤ endPos first pos bytes →
    dbItems first pos (bytes.flatMap nirChar ++ tail) =
      listText first (printedBytes first pos bytes)
  | first, pos, [], tail, _, htail => by
    rcases htail with rfl | hfull
    · rfl
    · exact dbItems_full first hfull tail
  | first, pos, b :: bytes, tail, hb, htail => by
    rw [List.flatMap_cons, List.append_assoc, printedBytes]
    by_cases hpos : 246 ≤ pos
    · rw [if_pos hpos, dbItems_full first hpos]
      rfl
    · have ih := dbItems_bytes false (nextPos first pos b)
        (fun c hc => hb c (List.mem_cons_of_mem b hc)) htail
      rw [if_neg hpos, dbItems_byte first (by omega) (hb b List.mem_cons_self), ih, listText]

/-- Bytes after the buffer is full are not printed. -/
theorem printedBytes_append : ∀ (first : Bool) (pos : Nat) (a b : List Nat),
    246 ≤ endPos first pos a → printedBytes first pos (a ++ b) = printedBytes first pos a
  | first, pos, [], b, h => by
    have hpos : 246 ≤ pos := h
    cases b with
    | nil => rfl
    | cons c b => exact if_pos hpos
  | first, pos, c :: a, b, h => by
    rw [List.cons_append, printedBytes, printedBytes, printedBytes_append false _ a b h]

theorem endPos_ge : ∀ (pos : Nat) (bytes : List Nat),
    pos + 5 * bytes.length ≤ endPos false pos bytes
  | _, [] => Nat.le_refl _
  | pos, b :: bytes => by
    have ih := endPos_ge (nextPos false pos b) bytes
    have hwidth : 3 ≤ itemWidth b := by
      unfold itemWidth
      split_ifs <;> decide
    have hpos : nextPos false pos b = pos + 2 + itemWidth b := rfl
    rw [endPos, List.length_cons]
    omega

theorem printedBytes_subset : ∀ (first : Bool) (pos : Nat) (bytes : List Nat),
    printedBytes first pos bytes ⊆ bytes
  | _, _, [] => List.Subset.refl _
  | first, pos, b :: bytes => by
    rw [printedBytes]
    split
    · exact List.nil_subset _
    · exact List.cons_subset_cons b (printedBytes_subset false _ bytes)

/-! ## The bytes of the list -/

/-- A byte other than an apostrophe is read as a number. -/
theorem reads_itemText {b : Nat} (hb : b < 256) (hquote : b ≠ 0x27) :
    ∃ n, Reads (itemText b) n ∧ toByte n.ival = b := by
  unfold itemText
  by_cases h : IsPrinted b
  · have hnat := toNat_ofNat_of_isPrinted h
    have hchar : Char.ofNat b ≠ '\'' := by
      intro heq
      rw [heq] at hnat
      exact hquote hnat.symm
    rw [if_pos h]
    refine ⟨_, reads_char hchar (ofNat_ne_of_isPrinted h), ?_⟩
    simp only [hnat, toByte]
    omega
  · rw [if_neg h]
    refine ⟨_, reads_hex 2 b (by omega), ?_⟩
    simp only [toByte]
    omega

/-- **The bytes of a list**, up to an apostrophe. -/
theorem parseDb_bytes (env : Env) : ∀ (bytes : List Nat) (b fuel : Nat) (s : ParseState),
    (∀ c ∈ b :: bytes, c < 256) → bytes.length < fuel → s.peek = none →
    s.ptr = ' ' :: itemText b ++ listText false bytes →
    (parseDb fuel env s).1 = (b :: bytes).takeWhile (· ≠ 0x27) ∧
      (parseDb fuel env s).2.errors = s.errors
  | bytes, b, 0, s, _, hfuel, _, _ => absurd hfuel (Nat.not_lt_zero _)
  | bytes, b, fuel + 1, s, hbytes, hfuel, hpeek, hptr => by
    by_cases hquote : b = 0x27
    · subst hquote
      rw [List.takeWhile_cons_of_neg (by decide)]
      exact parseDb_quote fuel hpeek hptr
    · obtain ⟨n, hn, hval⟩ := reads_itemText (hbytes b List.mem_cons_self) hquote
      rw [List.takeWhile_cons_of_pos (by simpa using hquote)]
      cases bytes with
      | nil =>
        rw [parseDb_last fuel hpeek (hptr.trans (List.append_nil _)) hn, hval]
        exact ⟨rfl, rfl⟩
      | cons c bytes =>
        have ih := parseDb_bytes env bytes c fuel
          { s with ptr := ' ' :: itemText c ++ listText false bytes }
          (fun d hd => hbytes d (List.mem_cons_of_mem b hd)) (Nat.lt_of_succ_lt_succ hfuel)
          hpeek rfl
        have hptr' : s.ptr =
            ' ' :: itemText b ++ ',' :: (' ' :: itemText c ++ listText false bytes) :=
          hptr
        rw [parseDb_cons fuel hpeek hptr' hn, hval, ih.1]
        exact ⟨rfl, ih.2⟩

/-! ## Where the list stops -/

/-- The bytes that are assembled. -/
def keptBytes (first : Bool) (pos : Nat) (bytes : List Nat) : List Nat :=
  (printedBytes first pos bytes).takeWhile (· ≠ 0x27)

theorem keptBytes_cons (first : Bool) (pos b : Nat) (bytes : List Nat) :
    keptBytes first pos (b :: bytes) =
      if pos < 246 ∧ b ≠ 0x27 then b :: keptBytes false (nextPos first pos b) bytes else [] := by
  unfold keptBytes
  rw [printedBytes]
  by_cases hpos : 246 ≤ pos
  · rw [if_pos hpos, if_neg (by omega)]
    rfl
  · rw [if_neg hpos]
    by_cases hb : b = 0x27
    · rw [if_neg (by simp [hb]), List.takeWhile_cons_of_neg (by simp [hb])]
    · rw [if_pos ⟨by omega, hb⟩, List.takeWhile_cons_of_pos (by simpa using hb)]

theorem keptBytes_initial : ∀ (first : Bool) (pos : Nat) (bytes : List Nat),
    keptBytes first pos bytes <+: bytes
  | _, _, [] => List.prefix_rfl
  | first, pos, b :: bytes => by
    rw [keptBytes_cons]
    split
    · exact List.prefix_cons_inj b |>.mpr (keptBytes_initial false _ bytes)
    · exact List.nil_prefix

/-- The list stops after the bytes that are assembled, and nowhere else. -/
theorem stopsAt_iff : ∀ (first : Bool) (pos : Nat) (bytes : List Nat) (n : Nat),
    StopsAt first pos bytes n ↔ n = (keptBytes first pos bytes).length
  | _, _, [], _ => by
    rw [StopsAt]
    rfl
  | first, pos, b :: bytes, 0 => by
    rw [keptBytes_cons, StopsAt]
    split <;> rename_i h
    · simp only [List.length_cons, Nat.zero_ne_add_one, iff_false]
      omega
    · simp only [List.length_nil, iff_true]
      omega
  | first, pos, b :: bytes, n + 1 => by
    have ih := stopsAt_iff false (nextPos first pos b) bytes n
    rw [keptBytes_cons, StopsAt]
    by_cases h : pos < 246 ∧ b ≠ 0x27
    · rw [if_pos h, List.length_cons, Nat.succ_inj, ← ih]
      exact ⟨fun hs => hs.2.2, fun hs => ⟨h.1, h.2, hs⟩⟩
    · rw [if_neg h]
      exact ⟨fun hs => absurd ⟨hs.1, hs.2.1⟩ h, fun hs => absurd hs (Nat.succ_ne_zero n)⟩

/-- The bytes that are assembled are given ones. -/
theorem keptBytes_eq_iff (first : Bool) (pos : Nat) (bytes kept : List Nat) :
    keptBytes first pos bytes = kept ↔ kept <+: bytes ∧ StopsAt first pos bytes kept.length := by
  rw [stopsAt_iff]
  constructor
  · rintro rfl
    exact ⟨keptBytes_initial first pos bytes, rfl⟩
  · rintro ⟨hpre, hlen⟩
    exact (List.prefix_iff_eq_take.mp (keptBytes_initial first pos bytes)).trans
      (hlen ▸ (List.prefix_iff_eq_take.mp hpre).symm)

/-- After the first byte all bytes are assembled when there is no apostrophe and room for the last
one. -/
theorem stopsAt_length : ∀ (pos : Nat) (bytes : List Nat),
    StopsAt false pos bytes bytes.length ↔
      0x27 ∉ bytes ∧ (bytes ≠ [] → pos + (bytes.dropLast.map fun b => itemWidth b + 2).sum < 246)
  | _, [] => by simp [StopsAt]
  | pos, [b] => by
    rw [List.length_singleton, StopsAt, StopsAt, List.mem_singleton, List.dropLast_singleton]
    constructor
    · rintro ⟨hpos, hb, -⟩
      exact ⟨fun h => hb h.symm, fun _ => hpos⟩
    · rintro ⟨hb, hpos⟩
      exact ⟨hpos (List.cons_ne_nil b []), fun h => hb h.symm, rfl⟩
  | pos, b :: c :: bytes => by
    have ih := stopsAt_length (nextPos false pos b) (c :: bytes)
    have hnext : nextPos false pos b = pos + 2 + itemWidth b := rfl
    have hstep : StopsAt false pos (b :: c :: bytes) (b :: c :: bytes).length ↔
        pos < 246 ∧ b ≠ 0x27 ∧
          StopsAt false (nextPos false pos b) (c :: bytes) (c :: bytes).length := Iff.rfl
    have hmem : 0x27 ∉ b :: c :: bytes ↔ 0x27 ≠ b ∧ 0x27 ∉ c :: bytes := by
      rw [List.mem_cons, not_or]
    rw [hstep, ih, hnext, hmem, List.dropLast_cons_of_ne_nil (List.cons_ne_nil c bytes),
      List.map_cons, List.sum_cons]
    constructor
    · rintro ⟨-, hb, hnot, hsum⟩
      have hsum := hsum (List.cons_ne_nil c bytes)
      exact ⟨⟨fun h => hb h.symm, hnot⟩, fun _ => by omega⟩
    · rintro ⟨⟨hb, hnot⟩, hsum⟩
      have hsum := hsum (List.cons_ne_nil b (c :: bytes))
      exact ⟨by omega, fun h => hb h.symm, hnot, fun _ => by omega⟩

/-- All bytes of a literal are assembled. -/
theorem stopsAt_all {start : Nat} (hstart : start < 246) (bytes : List Nat) :
    StopsAt true start bytes bytes.length ↔
      0x27 ∉ bytes ∧ start + (bytes.dropLast.map fun b => itemWidth b + 2).sum < 248 := by
  cases bytes with
  | nil =>
    refine iff_of_true rfl ⟨List.not_mem_nil, ?_⟩
    rw [List.dropLast_nil, List.map_nil, List.sum_nil]
    omega
  | cons b bytes =>
    have hstep : StopsAt true start (b :: bytes) (b :: bytes).length ↔
        start < 246 ∧ b ≠ 0x27 ∧ StopsAt false (start + itemWidth b) bytes bytes.length := Iff.rfl
    rw [hstep, stopsAt_length, List.mem_cons, not_or]
    cases bytes with
    | nil =>
      rw [List.dropLast_singleton, List.map_nil, List.sum_nil]
      constructor
      · rintro ⟨-, hb, hnot, -⟩
        exact ⟨⟨fun h => hb h.symm, hnot⟩, by omega⟩
      · rintro ⟨⟨hb, hnot⟩, -⟩
        exact ⟨hstart, fun h => hb h.symm, hnot, fun h => absurd rfl h⟩
    | cons c bytes =>
      rw [List.dropLast_cons_of_ne_nil (List.cons_ne_nil c bytes), List.map_cons, List.sum_cons]
      constructor
      · rintro ⟨-, hb, hnot, hsum⟩
        have hsum := hsum (List.cons_ne_nil c bytes)
        exact ⟨⟨fun h => hb h.symm, hnot⟩, by omega⟩
      · rintro ⟨⟨hb, hnot⟩, hsum⟩
        exact ⟨hstart, fun h => hb h.symm, hnot, fun _ => by omega⟩

/-! ## The line -/

/-- The statement of a data line with a label. -/
theorem splitLine_data {name rest : Text} (h : IsName name) (hlen : name.length < 64) :
    (splitLine (name ++ ' ' :: 'd' :: 'b' :: ' ' :: rest)).2 = 'd' :: 'b' :: ' ' :: rest := by
  refine splitLine_scan h ?_ rfl
  rw [scanLabel_name h hlen (by
    intro c hc
    cases hc
    rfl)]
  rfl

theorem length_listText : ∀ bytes : List Nat, bytes.length ≤ (listText false bytes).length
  | [] => Nat.le_refl _
  | b :: bytes => by
    have ih := length_listText bytes
    rw [listText, List.length_append, List.length_append, List.length_cons]
    simp only [Bool.false_eq_true, if_false, List.length_cons]
    omega

/-- The bytes of a data line with the list of a constant. -/
theorem listLine_bytes (env : Env) {label : Text} (hlabel : IsName label) (hlen : label.length < 64)
    {bytes : List Nat} (hbytes : ∀ b ∈ bytes, b < 256) :
    lineBytes env (label ++ [' ', 'd', 'b', ' '] ++ listText true bytes) =
        bytes.takeWhile (· ≠ 0x27) ∧
      lineErrors env (label ++ [' ', 'd', 'b', ' '] ++ listText true bytes) = 0 := by
  have hsplit : (splitLine (label ++ [' ', 'd', 'b', ' '] ++ listText true bytes)).2 =
      'd' :: 'b' :: ' ' :: listText true bytes := by
    rw [List.append_assoc]
    exact splitLine_data hlabel hlen
  have hline : lineBytes env (label ++ [' ', 'd', 'b', ' '] ++ listText true bytes) =
      (parseDb ((listText true bytes).length + 2) env { ptr := ' ' :: listText true bytes }).1 :=
    congrArg (fun r => statementBytes (parseStatement env { ptr := r }).1) hsplit
  have herrors : lineErrors env (label ++ [' ', 'd', 'b', ' '] ++ listText true bytes) =
      (parseDb ((listText true bytes).length + 2) env
        { ptr := ' ' :: listText true bytes }).2.errors :=
    congrArg (fun r => (parseStatement env { ptr := r }).2.errors) hsplit
  rw [hline, herrors]
  cases bytes with
  | nil =>
    rw [parseDb_nil _ rfl rfl]
    exact ⟨rfl, rfl⟩
  | cons b bytes =>
    have hfuel := length_listText bytes
    refine parseDb_bytes env bytes b _ _ hbytes ?_ rfl rfl
    rw [listText, List.length_append]
    omega

/-! ## The line of a constant -/

theorem quote_notMem_nirChar (b : Nat) : '"' ∉ nirChar b := by
  unfold nirChar
  by_cases h : IsPrinted b
  · rw [if_pos h, List.mem_singleton]
    intro heq
    have hnat := toNat_ofNat_of_isPrinted h
    rw [← heq] at hnat
    exact h.2.2.1 hnat.symm
  · rw [if_neg h]
    intro hmem
    have hx : '"' ∈ printHex 2 b := by simpa using hmem
    exact absurd (isXDigit_of_mem_printHex hx) (by decide)

theorem length_nirChar {b : Nat} (h : b < 256) : (nirChar b).length ≤ 4 := by
  unfold nirChar
  obtain ⟨x, y, hxy⟩ := printHex_two h
  rw [hxy]
  split
  · exact (by decide : 1 ≤ 4)
  · exact Nat.le_refl 4

theorem length_encoded : ∀ {bytes : List Nat}, (∀ b ∈ bytes, b < 256) →
    (bytes.flatMap nirChar).length ≤ 4 * bytes.length
  | [], _ => Nat.le_refl _
  | b :: bytes, h => by
    have ih := length_encoded fun c hc => h c (List.mem_cons_of_mem b hc)
    have hb := length_nirChar (h b List.mem_cons_self)
    rw [List.flatMap_cons, List.length_append, List.length_cons]
    omega

theorem beforeLast_append {c : Char} {a : Text} : beforeLast c (a ++ [c]) = a := by
  have hmem : (a ++ [c]).contains c = true := by simp
  rw [beforeLast, if_pos hmem, List.reverse_append, List.reverse_singleton, List.singleton_append,
    List.dropWhile_cons_of_neg (by simp), List.drop_succ_cons, List.drop_zero, List.reverse_reverse]

theorem beforeLast_of_notMem {c : Char} {a : Text} (h : c ∉ a) : beforeLast c a = a :=
  if_neg (by simpa using h)

/-- The list of a literal, also when its line is cut off. -/
theorem dbItems_encoded {bytes : List Nat} (hbytes : ∀ b ∈ bytes, b < 256) (pos : Nat) {m : Nat}
    (hm : 1000 ≤ m) :
    dbItems true pos (beforeLast '"' ((bytes.flatMap nirChar ++ ['"']).take m)) =
      listText true (printedBytes true pos bytes) := by
  have hquote : '"' ∉ bytes.flatMap nirChar := by
    intro hmem
    obtain ⟨b, -, hb⟩ := List.mem_flatMap.mp hmem
    exact quote_notMem_nirChar b hb
  by_cases hcut : (bytes.flatMap nirChar).length < m
  · rw [List.take_of_length_le (by rw [List.length_append]; exact hcut), beforeLast_append]
    have hitems := dbItems_bytes true pos hbytes (.inl rfl : ([] : Text) = [] ∨ _)
    rwa [List.append_nil] at hitems
  · -- the buffer is full long before the cut
    have hlen := length_encoded hbytes
    have hsplit : bytes.take 60 ++ bytes.drop 60 = bytes := List.take_append_drop 60 bytes
    have hfirst : ∀ b ∈ bytes.take 60, b < 256 := fun b hb => hbytes b (List.mem_of_mem_take hb)
    have hfull : 246 ≤ endPos true pos (bytes.take 60) := by
      obtain ⟨b, rest, hcons⟩ : ∃ b rest, bytes = b :: rest := by
        cases bytes with
        | nil =>
          rw [List.flatMap_nil, List.length_nil] at hcut
          omega
        | cons b rest => exact ⟨b, rest, rfl⟩
      have hend := endPos_ge (nextPos true pos b) (rest.take 59)
      have hrest : rest.length = bytes.length - 1 := by rw [hcons]; rfl
      rw [hcons]
      show 246 ≤ endPos false (nextPos true pos b) (rest.take 59)
      rw [List.length_take] at hend
      omega
    have hshort := length_encoded hfirst
    have htake : (bytes.take 60).length ≤ 60 := by
      rw [List.length_take]
      omega
    have htext : (bytes.flatMap nirChar).take m =
        (bytes.take 60).flatMap nirChar ++
          ((bytes.drop 60).flatMap nirChar).take
            (m - ((bytes.take 60).flatMap nirChar).length) := by
      conv_lhs => rw [← hsplit, List.flatMap_append, List.take_append]
      rw [List.take_of_length_le (by omega)]
    have hprinted : printedBytes true pos bytes = printedBytes true pos (bytes.take 60) := by
      conv_lhs => rw [← hsplit, printedBytes_append true pos _ _ hfull]
    rw [List.take_append_of_le_length (by omega),
      beforeLast_of_notMem fun hmem => hquote (List.mem_of_mem_take hmem), htext, hprinted]
    exact dbItems_bytes true pos hfirst (.inr hfull)

/-- The names of constants. -/
theorem constName_chars (id : Nat) :
    ∀ c ∈ ['_', 'C'] ++ printDec id, c.isAlphanum = true ∨ c = '_' := by
  have hstart : ∀ c ∈ ['_', 'C'], c.isAlphanum = true ∨ c = '_' :=
    (isName_of_check (by decide) : IsName ['_', 'C']).chars
  intro c hc
  rcases List.mem_append.mp hc with hc | hc
  · exact hstart c hc
  · have hnat : printDec id = Nat.toDigits 10 id := if_neg (by omega)
    rw [hnat] at hc
    have hdigit := isDigit_of_mem_toDigits hc
    left
    rw [Char.isAlphanum, hdigit, Bool.or_true]

theorem isName_stringLabel {f : LabelFn} (hf : IsName f.asmName) (id : Nat) :
    IsName (stringLabel f id) := by
  refine isName_take (by decide) ⟨?_, ?_⟩
  · obtain ⟨c, t, hname, hc⟩ := hf.start
    exact ⟨c, t ++ '_' :: (['_', 'C'] ++ printDec id), by rw [hname]; rfl, hc⟩
  · intro c hc
    rcases List.mem_append.mp hc with hc | hc
    · exact hf.chars c hc
    · rcases List.mem_cons.mp hc with rfl | hc
      · exact .inr rfl
      · exact constName_chars id c hc

theorem length_stringLabel (f : LabelFn) (id : Nat) : (stringLabel f id).length ≤ 31 := by
  rw [stringLabel, LabelFn.constLabel, printed, List.length_take]
  omega

theorem length_printDec {id : Nat} (h : id ≤ 2147483647) : (printDec id).length ≤ 10 := by
  have hnat : printDec id = Nat.toDigits 10 id := if_neg (by omega)
  rw [hnat]
  exact (Nat.length_toDigits_le_iff (by decide) (by decide)).mpr (by omega)

/-- **The line of a literal**: its label and the list of its bytes. -/
theorem stringLine_eq (p : LabelProgram) (f : LabelFn) {id : Nat} (hid : id ≤ 2147483647)
    {bytes : List Nat} (hbytes : ∀ b ∈ bytes, b < 256) :
    stringLine p f id bytes = stringLabel f id ++ [' ', 'd', 'b', ' '] ++
      listText true (printedBytes true ((stringLabel f id).length + 4) bytes) := by
  have hlen : (['_', 'C'] ++ printDec id).length ≤ 12 := by
    have hdec := length_printDec hid
    rw [List.length_append]
    exact Nat.add_le_add_left hdec 2
  have hends : ∀ c ∈ ['_', 'C'] ++ printDec id, endsWord c = false := by
    have hstart : ∀ c ∈ ['_', 'C'], endsWord c = false :=
      isName_endsWord (isName_of_check (by decide))
    intro c hc
    rcases List.mem_append.mp hc with hc | hc
    · exact hstart c hc
    · exact endsWord_of_mem_printDec hc
  have hcut : ((constLine id bytes).take 1023).drop 7 = ['_', 'C'] ++ printDec id ++
      ',' :: ' ' :: '"' :: (bytes.flatMap nirChar ++ ['"']).take
        (1013 - (['_', 'C'] ++ printDec id).length) := by
    have hline : constLine id bytes = ['.', 'c', 'o', 'n', 's', 't', ' '] ++
        (['_', 'C'] ++ printDec id ++ ',' :: ' ' :: '"' :: (bytes.flatMap nirChar ++ ['"'])) := by
      simp only [constLine, List.append_assoc, List.cons_append, List.nil_append]
    have hdrop : ∀ t : Text, ((['.', 'c', 'o', 'n', 's', 't', ' '] ++ t).take 1023).drop 7 =
        t.take 1016 := fun t => rfl
    have hroom : 1016 - (['_', 'C'] ++ printDec id).length =
        1013 - (['_', 'C'] ++ printDec id).length + 1 + 1 + 1 := by omega
    rw [hline, hdrop, List.take_append, List.take_of_length_le (by omega), hroom,
      List.take_succ_cons, List.take_succ_cons, List.take_succ_cons]
  have hread : ∀ y : Text, Line.readWord 32 (['_', 'C'] ++ printDec id ++ ',' :: y) =
      (['_', 'C'] ++ printDec id, ',' :: y) := by
    intro y
    have hne : ['_', 'C'] ++ printDec id ≠ [] := List.cons_ne_nil '_' _
    have hword := readWord_prefix 32 (',' :: y) hne hends (by
      intro c hc
      cases hc
      rfl)
    rw [List.take_of_length_le (by omega : _ ≤ 32 - 1),
      List.drop_of_length_le (by omega : _ ≤ 32 - 1)] at hword
    exact hword
  have hitems := dbItems_encoded hbytes ((stringLabel f id).length + 4)
    (by omega : 1000 ≤ 1013 - (['_', 'C'] ++ printDec id).length)
  have hskip : ∀ q : Text, skipComma (',' :: ' ' :: '"' :: q) = '"' :: q := fun q => rfl
  have hconst : readConst f (constLine id bytes) = {
      label := stringLabel f id
      data := stringLabel f id ++ [' ', 'd', 'b', ' '] ++
        listText true (printedBytes true ((stringLabel f id).length + 4) bytes) } := by
    rw [readConst, hcut, parseConst]
    simp only [hread, hskip]
    rw [← hitems]
    rfl
  rw [stringLine, hconst]
  rfl

/-- **The bytes of a literal** are those of the source up to where the list stops, and no error is
reported. -/
theorem stringLine_bytes (p : LabelProgram) (env : Env) {f : LabelFn} (hf : IsName f.asmName)
    {id : Nat} (hid : id ≤ 2147483647) {bytes : List Nat} (hbytes : ∀ b ∈ bytes, b < 256) :
    lineBytes env (stringLine p f id bytes) =
        keptBytes true ((stringLabel f id).length + 4) bytes ∧
      lineErrors env (stringLine p f id bytes) = 0 := by
  have hlen := length_stringLabel f id
  have hprinted : ∀ b ∈ printedBytes true ((stringLabel f id).length + 4) bytes, b < 256 := by
    intro b hb
    exact hbytes b (printedBytes_subset true _ bytes hb)
  rw [stringLine_eq p f hid hbytes]
  exact listLine_bytes env (isName_stringLabel hf id) (by omega) hprinted

/-! ## Literals -/

theorem isXDigit_lt {c : Char} (h : isXDigit c = true) : c.toNat < 256 := by
  simp only [isXDigit, Char.isDigit, Bool.or_eq_true, Bool.and_eq_true, decide_eq_true_eq,
    Char.le_def, UInt32.le_iff_toNat_le] at h
  have hval : c.toNat = c.val.toNat := rfl
  have hf : ('f' : Char).val.toNat = 102 := rfl
  have hF : ('F' : Char).val.toNat = 70 := rfl
  have hnine : ('9' : Char).val.toNat = 57 := rfl
  omega

theorem rawText_lt (lit : List LitChar) : ∀ b ∈ rawText lit, b < 256 := by
  intro b hb
  obtain ⟨c, -, hb⟩ := List.mem_flatMap.mp hb
  cases c with
  | plain d h =>
    rw [List.mem_singleton.mp hb]
    exact h.2.1
  | escape e =>
    rcases List.mem_cons.mp hb with rfl | hb
    · decide
    · rw [List.mem_singleton.mp hb]
      cases e <;> decide
  | hex x y h =>
    rcases List.mem_cons.mp hb with rfl | hb
    · decide
    rcases List.mem_cons.mp hb with rfl | hb
    · decide
    rcases List.mem_cons.mp hb with rfl | hb
    · exact isXDigit_lt h.1
    · rw [List.mem_singleton.mp hb]
      exact isXDigit_lt h.2

theorem rawText_of_plain : ∀ {lit : List LitChar}, (∀ c ∈ lit, c.isPlain = true) →
    rawText lit = decoded lit
  | [], _ => rfl
  | c :: lit, h => by
    have ih := rawText_of_plain fun d hd => h d (List.mem_cons_of_mem c hd)
    have hc := h c List.mem_cons_self
    cases c with
    | plain b hb =>
      rw [rawText, List.flatMap_cons, ← rawText, ih]
      rfl
    | escape e => cases hc
    | hex x y hxy => cases hc

/-- **The characters of a literal are assembled** exactly when it has no escape sequence and no
apostrophe and is short enough, or its list happens to stop where its source and its characters are
still the same. -/
theorem string_intact (p : LabelProgram) (env : Env) {f : LabelFn} (hf : IsName f.asmName)
    {id : Nat} (hid : id ≤ 2147483647) (lit : List LitChar) :
    (lineBytes env (stringLine p f id (rawText lit)) = decoded lit ∨
      0 < lineErrors env (stringLine p f id (rawText lit))) ↔
    Intact ((stringLabel f id).length + 4) lit ∨ Coincides ((stringLabel f id).length + 4) lit := by
  obtain ⟨hkept, herrors⟩ := stringLine_bytes p env hf hid (rawText_lt lit)
  have hlabel := length_stringLabel f id
  have hlen : (decoded lit).length = lit.length := List.length_map _
  have hkeep := keptBytes_eq_iff true ((stringLabel f id).length + 4) (rawText lit) (decoded lit)
  rw [hkept, herrors, hkeep, hlen]
  by_cases hplain : ∀ c ∈ lit, c.isPlain = true
  · have hraw := rawText_of_plain hplain
    have hall := stopsAt_all (by omega : (stringLabel f id).length + 4 < 246) (rawText lit)
    rw [← hraw] at hlen
    rw [hlen] at hall
    constructor
    · rintro (⟨-, hstops⟩ | hpos)
      · obtain ⟨hquote, hroom⟩ := hall.mp hstops
        exact .inl ⟨hplain, hquote, hroom⟩
      · exact absurd hpos (Nat.lt_irrefl 0)
    · rintro (⟨-, hquote, hroom⟩ | ⟨⟨c, hc, hfalse⟩, -⟩)
      · exact .inl ⟨hraw ▸ List.prefix_rfl, hall.mpr ⟨hquote, hroom⟩⟩
      · exact absurd (hplain c hc) (by rw [hfalse]; decide)
  · have hescape : ∃ c ∈ lit, c.isPlain = false := by
      by_contra hnone
      refine hplain fun c hc => ?_
      by_contra hfalse
      exact hnone ⟨c, hc, by simpa using hfalse⟩
    constructor
    · rintro (⟨hpre, hstops⟩ | hpos)
      · exact .inr ⟨hescape, hpre, hstops⟩
      · exact absurd hpos (Nat.lt_irrefl 0)
    · rintro (⟨hall, -, -⟩ | ⟨-, hpre, hstops⟩)
      · exact absurd hall hplain
      · exact .inl ⟨hpre, hstops⟩

/-- Two letters in a function with a name of one letter. -/
theorem string_intact_letters :
    lineBytes { labels := [], pass2 := true }
        (stringLine { functions := [] } { module := [], name := ['f'] } 0
          (rawText [.plain 0x41 (by decide), .plain 0x42 (by decide)])) = [0x41, 0x42] ∨
      0 < lineErrors { labels := [], pass2 := true }
        (stringLine { functions := [] } { module := [], name := ['f'] } 0
          (rawText [.plain 0x41 (by decide), .plain 0x42 (by decide)])) := by
  have hname : IsName (LabelFn.asmName { module := [], name := ['f'] }) :=
    (isName_of_check (by decide) : IsName ['f'])
  have hplain : ∀ c ∈ [LitChar.plain 0x41 (by decide), .plain 0x42 (by decide)],
      c.isPlain = true := by
    intro c hc
    rcases List.mem_cons.mp hc with rfl | hc
    · rfl
    · rw [List.mem_singleton.mp hc]
      rfl
  exact (string_intact { functions := [] } { labels := [], pass2 := true } hname (Nat.zero_le _)
    [.plain 0x41 (by decide), .plain 0x42 (by decide)]).mpr
    (.inl ⟨hplain, by decide, by decide⟩)

/-- The literal `it's` loses what comes after the apostrophe. -/
theorem apostrophe_not_intact :
    ¬(lineBytes { labels := [], pass2 := true }
        (stringLine { functions := [] } { module := [], name := ['f'] } 0
          (rawText [.plain 0x69 (by decide), .plain 0x74 (by decide), .plain 0x27 (by decide),
            .plain 0x73 (by decide)])) =
        decoded [.plain 0x69 (by decide), .plain 0x74 (by decide), .plain 0x27 (by decide),
          .plain 0x73 (by decide)] ∨
      0 < lineErrors { labels := [], pass2 := true }
        (stringLine { functions := [] } { module := [], name := ['f'] } 0
          (rawText [.plain 0x69 (by decide), .plain 0x74 (by decide), .plain 0x27 (by decide),
            .plain 0x73 (by decide)]))) := by
  decide

end Nib.Bind
