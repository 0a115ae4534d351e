import Nib.Bind.Spec.Globals
import Nib.Asm.Properties.Numerals

/-!
# Storage of globals

* `readWord_prefix` — a word up to the first character that ends it
* `typeText_take` — the text of a type is its name and its counts, as far as it is read
* `emitGlobal_bytes` — a global has the size that was computed
* `storage_reserved` — when that is the size of the type
-/

namespace Nib.Bind

open Nib.Asm Nib.Compile Infra

/-! ## Words -/

theorem take_append_congr {α : Type} {a b : List α} {n : Nat} (h : a.take n = b.take n)
    (x : List α) : (a ++ x).take n = (b ++ x).take n := by
  have hlen : n - a.length = n - b.length := by
    have := congrArg List.length h
    simp only [List.length_take] at this
    omega
  rw [List.take_append, List.take_append, h, hlen]

theorem takeWhile_take {α : Type} (p : α → Bool) : ∀ (n : Nat) {a : List α} (y : List α),
    (∀ c ∈ a, p c = true) → (∀ c, y.head? = some c → p c = false) →
    ((a ++ y).take n).takeWhile p = a.take n
  | 0, _, _, _, _ => rfl
  | _ + 1, [], [], _, _ => rfl
  | n + 1, [], c :: y, _, hy => by
    rw [List.nil_append, List.take_succ_cons, List.takeWhile_cons_of_neg (by simp [hy c rfl])]
    rfl
  | n + 1, c :: a, y, ha, hy => by
    rw [List.cons_append, List.take_succ_cons, List.take_succ_cons,
      List.takeWhile_cons_of_pos (ha c List.mem_cons_self),
      takeWhile_take p n y (fun d hd => ha d (List.mem_cons_of_mem c hd)) hy]

theorem skipWs_of_head {s : Text} (h : ∀ c, s.head? = some c → isSpace c = false) :
    skipWs s = s := by
  cases s with
  | nil => rfl
  | cons c t =>
    have hc := h c rfl
    simp only [isSpace, Bool.or_eq_false_iff] at hc
    rw [skipWs, List.dropWhile_cons_of_neg]
    rw [hc.1.1.1.1.1, hc.1.1.1.1.2]
    decide

theorem isSpace_of_endsWord {c : Char} (h : endsWord c = false) : isSpace c = false := by
  simp only [endsWord, Bool.or_eq_false_iff] at h
  exact h.1.1.1

/-- **A word up to the first character that ends it**, as far as the buffer holds it. -/
theorem readWord_prefix (size : Nat) {a : Text} (y : Text) (hne : a ≠ [])
    (ha : ∀ c ∈ a, endsWord c = false) (hy : ∀ c, y.head? = some c → endsWord c = true) :
    Line.readWord size (a ++ y) = (a.take (size - 1), a.drop (size - 1) ++ y) := by
  have hskip : skipWs (a ++ y) = a ++ y := by
    obtain ⟨d, b, rfl⟩ := List.exists_cons_of_ne_nil hne
    refine skipWs_of_head fun c hc => ?_
    cases hc
    exact isSpace_of_endsWord (ha d List.mem_cons_self)
  have hword : ((a ++ y).take (size - 1)).takeWhile (fun c => !endsWord c) = a.take (size - 1) :=
    takeWhile_take _ _ y (fun c hc => by rw [ha c hc]; rfl) (fun c hc => by rw [hy c hc]; rfl)
  simp only [Line.readWord, hskip, hword, List.length_take]
  congr 1
  rw [List.drop_append]
  rcases Nat.le_total (size - 1) a.length with h | h
  · rw [Nat.min_eq_left h, Nat.sub_eq_zero_of_le h, List.drop_zero]
  · rw [Nat.min_eq_right h, Nat.sub_self, List.drop_zero, List.drop_length,
      List.drop_of_length_le h]

/-! ## The text of a type -/

/-- The counts in brackets. -/
def brackets (ns : List Int) : Text := ns.flatMap fun n => '[' :: printDec n ++ [']']

/-- **The text of a type is its name and its counts**, as far as it is read. -/
theorem typeText_take (t : Ty) :
    (typeText t).take 63 = (rootName t ++ brackets (counts t)).take 63 := by
  induction t with
  | array e n ih =>
    calc (typeText (.array e n)).take 63
        = (typeText e ++ ('[' :: printDec n ++ [']'])).take 63 := by
          rw [typeText, List.take_take, Nat.min_self, List.append_assoc]
      _ = (rootName e ++ brackets (counts e) ++ ('[' :: printDec n ++ [']'])).take 63 :=
          take_append_congr ih _
      _ = (rootName e ++ brackets (counts e ++ [n])).take 63 := by
          rw [brackets, brackets, List.flatMap_append, List.flatMap_singleton, List.append_assoc]
  | bcd n =>
    rw [typeText, List.take_take, Nat.min_self, counts, brackets, List.flatMap_singleton,
      List.append_assoc]
    rfl
  | _ => exact congrArg (List.take 63) (List.append_nil _).symm

theorem isName_endsWord {name : Text} (h : IsName name) : ∀ c ∈ name, endsWord c = false := by
  intro c hc
  rcases h.chars c hc with hc | rfl
  · by_contra he
    simp only [endsWord, isSpace, Bool.not_eq_false, Bool.or_eq_true, beq_iff_eq] at he
    rcases he with (((((((rfl | rfl) | rfl) | rfl) | rfl) | rfl) | rfl) | rfl) | rfl <;>
      exact absurd hc (by decide)
  · decide

theorem isName_bracket {name : Text} (h : IsName name) : '[' ∉ name := by
  intro hc
  rcases h.chars '[' hc with hc | hc
  · exact absurd hc (by decide)
  · cases hc

theorem isName_ne_nil {name : Text} (h : IsName name) : name ≠ [] := by
  obtain ⟨c, t, rfl, -⟩ := h.start
  exact List.cons_ne_nil c t

theorem isName_take {name : Text} {n : Nat} (hn : 0 < n) (h : IsName name) :
    IsName (name.take n) := by
  obtain ⟨d, b, rfl, hd⟩ := h.start
  obtain ⟨m, rfl⟩ : ∃ m, n = m + 1 := ⟨n - 1, by omega⟩
  exact ⟨⟨d, b.take m, rfl, hd⟩, fun e he => h.chars e (List.mem_of_mem_take he)⟩

/-- A name, by its characters. -/
theorem isName_of_check {c : Char} {t : Text}
    (h : ((c.isAlpha || c == '_') && (c :: t).all fun d => d.isAlphanum || d == '_') = true) :
    IsName (c :: t) := by
  obtain ⟨hstart, hchars⟩ := Bool.and_eq_true_iff.mp h
  refine ⟨⟨c, t, rfl, by simpa using hstart⟩, fun d hd => ?_⟩
  simpa using List.all_eq_true.mp hchars d hd

/-- The name of a type is like that of a declaration. -/
theorem isName_rootName : ∀ {t : Ty}, TySound t → IsName (rootName t)
  | .array e _, h => isName_rootName (t := e) h.1
  | .struct _, h => h
  | .u8, _ => isName_of_check (by decide)
  | .u16, _ => isName_of_check (by decide)
  | .u32, _ => isName_of_check (by decide)
  | .seg, _ => isName_of_check (by decide)
  | .bool, _ => isName_of_check (by decide)
  | .bcd _, _ => (isName_of_check (by decide) : IsName ['b', 'c', 'd'])
  | .far, _ => isName_of_check (by decide)
  | .void, _ => isName_of_check (by decide)

theorem endsWord_of_mem_printDec {n : Int} {c : Char} (h : c ∈ printDec n) :
    endsWord c = false := by
  by_contra he
  simp only [endsWord, isSpace, Bool.not_eq_false, Bool.or_eq_true, beq_iff_eq] at he
  rcases printDec_char h with rfl | hd
  · exact absurd he (by decide)
  · rcases he with (((((((rfl | rfl) | rfl) | rfl) | rfl) | rfl) | rfl) | rfl) | rfl <;>
      exact absurd hd (by decide)

/-- What is read of a type: its name and its first count. -/
def wordText (t : Ty) : Text :=
  rootName t ++ match counts t with
    | [] => []
    | n :: _ => '[' :: printDec n

theorem wordText_ne_nil {t : Ty} (h : TySound t) : wordText t ≠ [] :=
  List.append_ne_nil_of_left_ne_nil (isName_ne_nil (isName_rootName h)) _

theorem wordText_endsWord {t : Ty} (h : TySound t) : ∀ c ∈ wordText t, endsWord c = false := by
  intro c hc
  rcases List.mem_append.mp hc with hc | hc
  · exact isName_endsWord (isName_rootName h) c hc
  · cases hn : counts t with
    | nil =>
      rw [hn] at hc
      cases hc
    | cons n outer =>
      rw [hn] at hc
      rcases List.mem_cons.mp hc with rfl | hc
      · decide
      · exact endsWord_of_mem_printDec hc

/-- What follows a type ends its word. -/
theorem endsWord_atText (at? : Option (Nat × Nat)) (hasInit : Bool) :
    ∀ c, (atText at? ++ initText hasInit).head? = some c → endsWord c = true := by
  intro c hc
  cases at? with
  | none =>
    cases hasInit with
    | false => cases hc
    | true =>
      cases hc
      rfl
  | some a =>
    cases hc
    rfl

/-- What follows the word. -/
def afterWord (t : Ty) : Text :=
  match counts t with
  | [] => []
  | _ :: outer => ']' :: brackets outer

theorem wordText_afterWord (t : Ty) :
    wordText t ++ afterWord t = rootName t ++ brackets (counts t) := by
  unfold wordText afterWord
  cases counts t with
  | nil => rw [List.append_nil, List.append_nil, brackets, List.flatMap_nil, List.append_nil]
  | cons n outer =>
    rw [brackets, List.flatMap_cons, List.append_assoc, List.append_assoc]
    rfl

/-- Only what fits into the buffer is looked at. -/
theorem readWord_congr {size : Nat} {x y : Text} (h : x.take (size - 1) = y.take (size - 1))
    (hx : ∀ c, x.head? = some c → isSpace c = false)
    (hy : ∀ c, y.head? = some c → isSpace c = false) :
    (Line.readWord size x).1 = (Line.readWord size y).1 := by
  simp only [Line.readWord, skipWs_of_head hx, skipWs_of_head hy, h]

/-- The word that is read of a type. -/
theorem readWord_typeText {t : Ty} (h : TySound t) {y : Text}
    (hy : ∀ c, y.head? = some c → endsWord c = true) :
    (Line.readWord 32 (typeText t ++ y)).1 = (wordText t).take 31 := by
  have hword := readWord_prefix 32 (afterWord t ++ y) (wordText_ne_nil h)
    (wordText_endsWord h) (by
      intro c hc
      unfold afterWord at hc
      cases hn : counts t with
      | nil =>
        rw [hn, List.nil_append] at hc
        exact hy c hc
      | cons n outer =>
        rw [hn] at hc
        cases hc
        rfl)
  have htake : (typeText t ++ y).take 31 =
      (wordText t ++ (afterWord t ++ y)).take 31 := by
    rw [← List.append_assoc, wordText_afterWord]
    refine take_append_congr ?_ _
    have h31 := congrArg (List.take 31) (typeText_take t)
    rwa [List.take_take, List.take_take] at h31
  obtain ⟨d, b, hd⟩ := List.exists_cons_of_ne_nil (wordText_ne_nil h)
  have hhead : ∀ c, (wordText t ++ (afterWord t ++ y)).head? = some c →
      isSpace c = false := by
    intro c hc
    rw [hd] at hc
    cases hc
    exact isSpace_of_endsWord (wordText_endsWord h d (hd ▸ List.mem_cons_self))
  rw [readWord_congr htake ?_ hhead, hword]
  intro c hc
  refine hhead c ?_
  have hhead' := congrArg List.head? htake
  rw [List.head?_take, List.head?_take, if_neg (by decide), if_neg (by decide)] at hhead'
  rw [← hhead', hc]

/-! ## Sizes -/

theorem typeSize_counts (c : Compiler) : ∀ t : Ty, typeSize c t = rootSize c t * (counts t).prod
  | .array e n => by
    have ih := typeSize_counts c e
    have hstep : typeSize c (.array e n) = typeSize c e * n := rfl
    rw [hstep, ih, counts, List.prod_append, List.prod_singleton, Int.mul_assoc]
    rfl
  | .bcd n => by
    rw [counts, List.prod_singleton]
    exact (Int.one_mul n).symm
  | .u8 | .u16 | .u32 | .seg | .bool | .struct _ | .far | .void => (Int.mul_one _).symm

theorem dropWhile_all {p : Char → Bool} {s : Text} (h : ∀ c ∈ s, p c = true) :
    s.dropWhile p = [] := by
  have hstop := (takeWhile_append_stop [] h (by simp)).2
  rwa [List.append_nil] at hstop

/-- A type without a bracket. -/
theorem globalSize_word {w : Text} (h : '[' ∉ w) : globalSize w = wordSize w := by
  have hchars : ∀ c ∈ w, decide (c ≠ '[') = true := fun c hc =>
    decide_eq_true fun heq => h (heq ▸ hc)
  have hdrop : w.dropWhile (· ≠ '[') = [] := dropWhile_all hchars
  unfold globalSize wordSize
  rw [hdrop]
  split_ifs <;> simp_all

/-- The start of a type is that of its name. -/
theorem elemWidth_append {a x : Text} : elemWidth (a ++ '[' :: x) = elemWidth a := by
  have htake : ∀ w : Text, w.length = 3 → '[' ∉ w →
      ((a ++ '[' :: x).take 3 = w ↔ a.take 3 = w) := by
    intro w hw hb
    rcases Nat.lt_or_ge a.length 3 with hlt | hge
    · constructor
      · intro h
        refine absurd ?_ hb
        rw [← h, List.take_append, List.mem_append]
        obtain ⟨k, hk⟩ : ∃ k, 3 - a.length = k + 1 := ⟨2 - a.length, by omega⟩
        rw [hk, List.take_succ_cons]
        exact .inr List.mem_cons_self
      · intro h
        have hlen := congrArg List.length h
        rw [List.length_take, hw] at hlen
        omega
    · rw [List.take_append_of_le_length hge]
  unfold elemWidth
  simp only [htake ['u', '1', '6'] rfl (by decide), htake ['u', '3', '2'] rfl (by decide),
    htake ['f', 'a', 'r'] rfl (by decide)]

/-- A type with a bracket. -/
theorem globalSize_count {a x : Text} (h : '[' ∉ a) :
    globalSize (a ++ '[' :: x) = elemWidth a * atoi x := by
  have hne : ∀ w : Text, '[' ∉ w → a ++ '[' :: x ≠ w := fun w hw heq =>
    hw (heq ▸ List.mem_append_right a List.mem_cons_self)
  have hchars : ∀ c ∈ a, decide (c ≠ '[') = true := fun c hc =>
    decide_eq_true fun heq => h (heq ▸ hc)
  have hdrop : (a ++ '[' :: x).dropWhile (· ≠ '[') = '[' :: x :=
    (takeWhile_append_stop ('[' :: x) hchars (by simp)).2
  unfold globalSize
  rw [if_neg (hne _ (by decide)), if_neg (hne _ (by decide)), if_neg (hne _ (by decide)),
    if_neg (hne _ (by decide)), if_neg (hne _ (by decide)), hdrop, elemWidth_append]

/-- A count that was printed is read back. -/
theorem atoi_printDec {n : Int} (h : InInt n) : atoi (printDec n) = n := by
  have hread := strtol_printDec n [] (by simp)
  rw [List.append_nil] at hread
  obtain ⟨hlow, hhigh⟩ := h
  simp only [atoi, hread, clampLong, Asm.toInt32]
  omega

/-! ## Lines -/

theorem isIdentChar_of_isName {name : Text} (h : IsName name) :
    ∀ c ∈ name, isIdentChar c = true := by
  intro c hc
  rcases h.chars c hc with hc | rfl
  · rw [isIdentChar, hc]
    rfl
  · rfl

theorem isIdentStart_of_isName {c : Char} {t : Text} (h : IsName (c :: t)) :
    isIdentStart c = true := by
  obtain ⟨d, u, hname, hc⟩ := h.start
  cases hname
  rcases hc with hc | rfl
  · rw [isIdentStart, hc]
    rfl
  · rfl

theorem skipWs_name {name : Text} (h : IsName name) (rest : Text) :
    skipWs (name ++ rest) = name ++ rest := by
  obtain ⟨c, t, rfl, -⟩ := h.start
  refine skipWs_of_head fun d hd => ?_
  cases hd
  exact isSpace_of_endsWord (isName_endsWord h c List.mem_cons_self)

/-- What a name at the start of a line is, by what follows it. -/
def labelBefore (name rest : Text) : Option (Text × Text) :=
  match skipWs rest with
  | ':' :: rest => some (name, rest)
  | rest =>
    if startsWithWord "equ" rest || startsWithWord "db" rest || startsWithWord "dw" rest then
      some (name, rest)
    else none

theorem scanLabel_name {name rest : Text} (h : IsName name) (hlen : name.length < 64)
    (hr : ∀ c, rest.head? = some c → isIdentChar c = false) :
    scanLabel (name ++ rest) = labelBefore name rest := by
  have hws := skipWs_name h rest
  obtain ⟨htake, hdrop⟩ := takeWhile_append_stop rest (isIdentChar_of_isName h) hr
  obtain ⟨c, t, hname, -⟩ := h.start
  have hstart := isIdentStart_of_isName (hname ▸ h)
  have hline : name ++ rest = c :: (t ++ rest) := by rw [hname, List.cons_append]
  unfold scanLabel
  rw [hws]
  rw [hline] at htake hdrop ⊢
  simp only [hstart, htake, hdrop, Bool.not_true, Bool.false_eq_true, if_false,
    if_neg (by omega : ¬name.length ≥ 64)]
  rfl

/-- The statement of a line that starts with a label. -/
theorem splitLine_scan {name rest r : Text} (h : IsName name)
    (hscan : scanLabel (name ++ rest) = some (name, r))
    (hequ : startsWithWord "equ" (skipWs r) = false) : (splitLine (name ++ rest)).2 = r := by
  have hcomment : (name ++ rest).take 3 ≠ "; @".toList := by
    obtain ⟨c, t, hname, -⟩ := h.start
    have hstart := isIdentStart_of_isName (hname ▸ h)
    rw [hname]
    intro heq
    have hhead := congrArg List.head? heq
    cases hhead
    exact absurd hstart (by decide)
  unfold splitLine
  rw [skipWs_name h, if_neg hcomment, hscan]
  simp only [hequ, Bool.false_eq_true, if_false]
  split_ifs <;> rfl

theorem splitLine_label {name rest : Text} (h : IsName name) (hlen : name.length < 64)
    (hequ : startsWithWord "equ" (skipWs rest) = false) :
    (splitLine (name ++ ':' :: rest)).2 = rest := by
  refine splitLine_scan h ?_ hequ
  rw [scanLabel_name h hlen (by
    intro c hc
    cases hc
    rfl)]
  rfl

theorem lineBytes_dbZero (env : Env) : lineBytes env ([' ', ' ', ' '] ++ dbZero) = [0] := rfl

theorem lineBytes_dwZero (env : Env) : lineBytes env ([' ', ' ', ' '] ++ dwZero) = [0, 0] := rfl

theorem linesBytes_append (env : Env) (a b : List Text) :
    linesBytes env (a ++ b) = linesBytes env a ++ linesBytes env b := List.flatMap_append

theorem linesBytes_replicate (env : Env) (line : Text) : ∀ n,
    (linesBytes env (List.replicate n line)).length = n * (lineBytes env line).length
  | 0 => by rw [Nat.zero_mul]; rfl
  | n + 1 => by
    have ih := linesBytes_replicate env line n
    rw [List.replicate_succ, linesBytes, List.flatMap_cons, List.length_append, Nat.succ_mul,
      Nat.add_comm]
    exact congrArg (· + _) ih

/-- The bytes of `zeroLines`. -/
theorem zeroLines_bytes (env : Env) (size : Int) :
    ((linesBytes env (zeroLines size)).length : Int) = max 0 size := by
  have hwords := linesBytes_replicate env ([' ', ' ', ' '] ++ dwZero) (size / 2).toNat
  rw [lineBytes_dwZero] at hwords
  rw [zeroLines, linesBytes_append, List.length_append, hwords]
  by_cases hodd : size % 2 = 1 ∧ 0 < size
  · have hone : (linesBytes env [[' ', ' ', ' '] ++ dbZero]).length = 1 := rfl
    rw [if_pos hodd, hone]
    simp only [List.length_cons, List.length_nil]
    omega
  · rw [if_neg hodd]
    have hnone : (linesBytes env []).length = 0 := rfl
    rw [hnone]
    simp only [List.length_cons, List.length_nil]
    omega

/-- **A global has the size that was computed.** -/
theorem emitGlobal_bytes (env : Env) {g : GlobalVar} (hname : IsName g.name)
    (hlen : g.name.length < 64) :
    ((linesBytes env (emitGlobal g)).length : Int) = max 0 g.size := by
  have hlabel : ∀ rest, startsWithWord "equ" (skipWs rest) = false →
      lineBytes env (g.name ++ ':' :: rest) =
        statementBytes (parseStatement env { ptr := rest }).1 := fun rest hequ =>
    congrArg (fun r => statementBytes (parseStatement env { ptr := r }).1)
      (splitLine_label hname hlen hequ)
  unfold emitGlobal
  by_cases h1 : g.size = 1
  · rw [if_pos h1, h1, linesBytes, List.flatMap_singleton, hlabel dbZero rfl]
    rfl
  · by_cases h2 : g.size = 2
    · rw [if_neg h1, if_pos h2, h2, linesBytes, List.flatMap_singleton, hlabel dwZero rfl]
      rfl
    · have hfirst : lineBytes env (g.name ++ [':']) = [] := hlabel [] rfl
      have hzeros := zeroLines_bytes env g.size
      rw [if_neg h1, if_neg h2, linesBytes, List.flatMap_cons, hfirst, List.nil_append]
      exact hzeros

/-! ## The line of a global -/

theorem skipWs_skipWs : ∀ s : Text, skipWs (skipWs s) = skipWs s
  | [] => rfl
  | c :: s => by
    have ih := skipWs_skipWs s
    by_cases hc : (c == ' ' || c == '\t') = true
    · have hstep : skipWs (c :: s) = skipWs s := List.dropWhile_cons_of_pos hc
      rw [hstep, ih]
    · have hstep : skipWs (c :: s) = c :: s := List.dropWhile_cons_of_neg hc
      rw [hstep, hstep]

theorem readWord_skipWs (size : Nat) (s : Text) :
    Line.readWord size (skipWs s) = Line.readWord size s := by
  simp only [Line.readWord, skipWs_skipWs]

theorem stripComma_of_notMem {t : Text} (h : ',' ∉ t) : stripComma t = t :=
  if_neg fun hlast => h (List.mem_of_getLast? hlast)

/-- The name that is read, and what is read of the type. -/
theorem parseGlobal_line {name : Text} (h : IsName name) {t : Ty} (ht : TySound t)
    (at? : Option (Nat × Nat)) (hasInit : Bool) :
    (parseGlobal (globalLine name t at? hasInit)).name = name.take 63 ∧
      (parseGlobal (globalLine name t at? hasInit)).size =
        globalSize (if name.length ≤ 63 then (wordText t).take 31
          else (name.drop 63).take 31) := by
  have hline : globalLine name t at? hasInit =
      name ++ ',' :: ' ' :: (typeText t ++ (atText at? ++ initText hasInit)) := by
    rw [globalLine, List.append_assoc, List.append_assoc]
    rfl
  have hcomma : ',' ∉ name.take 63 := fun hc =>
    absurd (isName_endsWord h ',' (List.mem_of_mem_take hc)) (by decide)
  have hread := readWord_prefix 64 (',' :: ' ' :: (typeText t ++ (atText at? ++ initText hasInit)))
    (isName_ne_nil h) (isName_endsWord h) (by
      intro c hc
      cases hc
      rfl)
  have htype : (Line.readWord 32 (skipComma (name.drop 63 ++
      ',' :: ' ' :: (typeText t ++ (atText at? ++ initText hasInit))))).1 =
      if name.length ≤ 63 then (wordText t).take 31 else (name.drop 63).take 31 := by
    by_cases hlen : name.length ≤ 63
    · have hskip : skipComma (',' :: ' ' :: (typeText t ++ (atText at? ++ initText hasInit))) =
          skipWs (typeText t ++ (atText at? ++ initText hasInit)) := rfl
      rw [if_pos hlen, List.drop_of_length_le hlen, List.nil_append, hskip, readWord_skipWs,
        readWord_typeText ht (endsWord_atText at? hasInit)]
    · obtain ⟨d, b, hd⟩ : ∃ d b, name.drop 63 = d :: b :=
        List.exists_cons_of_ne_nil (List.drop_eq_nil_iff.not.mpr hlen)
      have hchars : ∀ c ∈ d :: b, endsWord c = false := fun c hc =>
        isName_endsWord h c (List.mem_of_mem_drop (hd ▸ hc))
      have hword := hchars d List.mem_cons_self
      have hskip : ∀ y, skipComma (d :: b ++ y) = d :: b ++ y := by
        intro y
        have hws : skipWs (d :: b ++ y) = d :: b ++ y :=
          skipWs_of_head fun c hc => by cases hc; exact isSpace_of_endsWord hword
        unfold skipComma
        rw [hws]
        split
        · rename_i heq
          rw [(List.cons.inj heq).1] at hword
          exact absurd hword (by decide)
        · rfl
      rw [if_neg hlen, hd, hskip, readWord_prefix 32 _ (List.cons_ne_nil d b) hchars (by
        intro c hc
        cases hc
        rfl)]
  rw [hline]
  simp only [parseGlobal, hread]
  exact ⟨stripComma_of_notMem hcomma, congrArg globalSize htype⟩

/-! ## The condition -/

theorem wordSize_nonneg (w : Text) : 0 ≤ wordSize w := by
  unfold wordSize
  split_ifs <;> decide

theorem elemWidth_pos (w : Text) : 0 < elemWidth w := by
  unfold elemWidth
  split_ifs <;> decide

/-- A word that fills the buffer is no name of a type. -/
theorem wordSize_long {w : Text} (h : w.length = 31) : wordSize w = 2 := by
  have hne : ∀ v : Text, v.length ≠ 31 → w ≠ v := fun v hv heq => hv (heq ▸ h)
  rw [wordSize, if_neg (hne _ (by decide)),
    if_neg (not_or.mpr ⟨hne _ (by decide), hne _ (by decide)⟩)]

theorem counts_inInt : ∀ {t : Ty}, TySound t → ∀ n ∈ counts t, InInt n
  | .array e n, h, m, hm => by
    rcases List.mem_append.mp hm with hm | hm
    · exact counts_inInt h.1 m hm
    · rw [List.mem_singleton.mp hm]
      exact h.2
  | .bcd n, h, m, hm => by
    rw [List.mem_singleton.mp hm]
    exact h
  | .u8, _, _, hm | .u16, _, _, hm | .u32, _, _, hm | .seg, _, _, hm | .bool, _, _, hm
  | .struct _, _, _, hm | .far, _, _, hm | .void, _, _, hm => by cases hm

theorem reservesCounts_iff {w s n : Int} {outer : List Int} (hw : 0 < w) :
    max 0 (w * n) = s * (n * outer.prod) ↔ ReservesCounts w s n outer := by
  have hswap : s * (n * outer.prod) = s * outer.prod * n := by
    rw [Int.mul_comm n, Int.mul_assoc]
  unfold ReservesCounts
  rw [hswap]
  by_cases hn : 0 < n
  · rw [if_pos hn, Int.max_eq_right (Int.le_of_lt (Int.mul_pos hw hn))]
    exact Int.mul_eq_mul_right_iff (by omega)
  · have hneg : w * n ≤ 0 := Int.mul_nonpos_of_nonneg_of_nonpos (Int.le_of_lt hw) (by omega)
    rw [if_neg hn, Int.max_eq_left hneg, eq_comm, Int.mul_eq_zero, or_comm]

/-- The size that is computed for a type. -/
theorem reservesType_iff (c : Compiler) {t : Ty} (h : TySound t) :
    max 0 (globalSize ((wordText t).take 31)) = typeSize c t ↔ ReservesType c t := by
  have hbracket := isName_bracket (isName_rootName h)
  cases hn : counts t with
  | nil =>
    cases t with
    | array e n => exact absurd hn (List.append_ne_nil_of_right_ne_nil _ (List.cons_ne_nil n []))
    | bcd n => cases hn
    | u8 | u16 | u32 | seg => exact iff_of_true rfl trivial
    | bool | far | void => exact iff_of_false (fun hsize => by cases hsize) id
    | struct name =>
      have hword : wordText (.struct name) = name.toList := List.append_nil _
      have hnot : '[' ∉ name.toList.take 31 := fun hc => hbracket (List.mem_of_mem_take hc)
      rw [hword, globalSize_word hnot, Int.max_eq_right (wordSize_nonneg _)]
      exact eq_comm
  | cons n outer =>
    have hword : wordText t = rootName t ++ '[' :: printDec n := by rw [wordText, hn]
    have hsize : typeSize c t = rootSize c t * (n * outer.prod) := by
      rw [typeSize_counts, hn, List.prod_cons]
    unfold ReservesType
    simp only [hn, hword, hsize]
    by_cases hlong : 31 ≤ (rootName t).length
    · have hnot : '[' ∉ (rootName t).take 31 := fun hc => hbracket (List.mem_of_mem_take hc)
      have hlen : ((rootName t).take 31).length = 31 := by
        rw [List.length_take]
        omega
      rw [if_pos hlong, List.take_append_of_le_length hlong, globalSize_word hnot,
        wordSize_long hlen]
      exact eq_comm
    · have htake : (rootName t ++ '[' :: printDec n).take 31 =
          rootName t ++ '[' :: (printDec n).take (30 - (rootName t).length) := by
        have hroom : 31 - (rootName t).length = 30 - (rootName t).length + 1 := by omega
        rw [List.take_append, List.take_of_length_le (by omega : (rootName t).length ≤ 31), hroom,
          List.take_succ_cons]
      rw [if_neg hlong, htake, globalSize_count hbracket]
      by_cases hfits : (printDec n).length ≤ 30 - (rootName t).length
      · have hint : InInt n := counts_inInt h n (hn ▸ List.mem_cons_self)
        rw [if_pos hfits, List.take_of_length_le hfits, atoi_printDec hint]
        exact reservesCounts_iff (elemWidth_pos _)
      · rw [if_neg hfits]

/-- The size of a global, with or without the remark on its initializer. -/
theorem reserves_iff (c : Compiler) (env : Env) {name : Text} (hname : IsName name) {t : Ty}
    (ht : TySound t) (at? : Option (Nat × Nat)) (hasInit : Bool) :
    ((linesBytes env (emitGlobal (parseGlobal (globalLine name t at? hasInit)))).length : Int) =
      typeSize c t ↔ Reserves c name t := by
  obtain ⟨hread, hsize⟩ := parseGlobal_line hname ht at? hasInit
  have hcut : IsName (name.take 63) := isName_take (by decide) hname
  have hlen : (name.take 63).length < 64 := by
    rw [List.length_take]
    omega
  rw [emitGlobal_bytes env (hread ▸ hcut) (hread ▸ hlen), hsize]
  unfold Reserves
  by_cases hshort : name.length ≤ 63
  · rw [if_pos hshort, if_pos hshort]
    exact reservesType_iff c ht
  · have hnot : '[' ∉ (name.drop 63).take 31 := fun hc =>
      isName_bracket hname (List.mem_of_mem_drop (List.mem_of_mem_take hc))
    rw [if_neg hshort, if_neg hshort, globalSize_word hnot, Int.max_eq_right (wordSize_nonneg _)]
    exact eq_comm

/-- **The binder reserves the size of the type** exactly when it knows the name of the type and
counts once. -/
theorem storage_reserved (c : Compiler) (env : Env) {name : Text} (hname : IsName name) {t : Ty}
    (ht : TySound t) (at? : Option (Nat × Nat)) :
    ((linesBytes env (emitGlobal (parseGlobal (globalLine name t at? false)))).length : Int) =
      typeSize c t ↔ Reserves c name t := reserves_iff c env hname ht at? false

theorem storage_reserved_words : Reserves {} ['w'] (.array .u16 3) := by
  have hsound : TySound (.array .u16 3) := ⟨trivial, by decide, by decide⟩
  exact (storage_reserved {} { labels := [], pass2 := true } (isName_of_check (by decide))
    hsound none).mp (by decide)

/-- A far pointer has two bytes. -/
theorem far_not_reserved :
    ((linesBytes { labels := [], pass2 := true }
      (emitGlobal (parseGlobal (globalLine ['p'] .far none false)))).length : Int) ≠
      typeSize {} .far := by
  decide

end Nib.Bind
