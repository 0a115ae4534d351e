import Nib.Asm.Spec.Data

/-!
# `db` lists

* `Sum`, `Factor` — expressions with their tokens and values
* `DbItem` — a quoted string or an expression, with its text and its bytes
* `EmitsAll` — a `db` line emits the bytes of all its items, or reports an error
* `Intact`, `Reported` — when it does
-/

namespace Nib.Asm

/-! ## Expressions -/

abbrev NumToken := { t : Token // t.type = .number }

/-- A name other than `SEG`. -/
abbrev NameToken := { t : Token // t.type = .ident ∧ isWord "seg" t.sval = false }

abbrev SegToken := { t : Token // t.type = .ident ∧ isWord "seg" t.sval = true }

abbrev LabelToken := { t : Token // t.type = .ident }

inductive Sign
  | none | plus | minus
  deriving DecidableEq, Repr

inductive SumOp
  | add | sub | mul
  deriving DecidableEq, Repr

mutual

inductive Factor
  | num (t : NumToken)
  | label (t : NameToken)
  | seg (kw : SegToken) (t : LabelToken)
  | paren (e : Sum)

/-- Operators are applied from left to right. -/
inductive Sum
  | first (sign : Sign) (x : Factor)
  | op (e : Sum) (o : SumOp) (x : Factor)

end

def Sign.tokens : Sign → List Token
  | .none => []
  | .plus => [{ type := .plus }]
  | .minus => [{ type := .minus }]

def SumOp.token : SumOp → Token
  | .add => { type := .plus }
  | .sub => { type := .minus }
  | .mul => { type := .star }

/-- Arithmetic on the target's `int`. -/
def Sign.apply (v : Int) : Sign → Int
  | .none => v
  | .plus => v
  | .minus => toInt32 (-v)

def SumOp.apply (v w : Int) : SumOp → Int
  | .add => toInt32 (v + w)
  | .sub => toInt32 (v - w)
  | .mul => toInt32 (v * w)

/-- The errors for a label that is not there. -/
def undefinedErrors (env : Env) (name : List Char) : Nat :=
  if (findLabel env.labels name).isNone && env.pass2 then 1 else 0

mutual

def Factor.tokens : Factor → List Token
  | .num t => [t.val]
  | .label t => [t.val]
  | .seg kw t => [kw.val, t.val]
  | .paren e => { type := .lparen } :: (e.tokens ++ [{ type := .rparen }])

def Sum.tokens : Sum → List Token
  | .first sign x => sign.tokens ++ x.tokens
  | .op e o x => e.tokens ++ o.token :: x.tokens

end

mutual

def Factor.value (env : Env) : Factor → Int
  | .num t => t.val.ival
  | .label t => labelValue env t.val.sval
  | .seg _ t => labelSegment env t.val.sval
  | .paren e => e.value env

def Sum.value (env : Env) : Sum → Int
  | .first sign x => sign.apply (x.value env)
  | .op e o x => o.apply (e.value env) (x.value env)

end

mutual

def Factor.errors (env : Env) : Factor → Nat
  | .num _ => 0
  | .label t => undefinedErrors env t.val.sval
  | .seg _ t => undefinedErrors env t.val.sval
  | .paren e => e.errors env

def Sum.errors (env : Env) : Sum → Nat
  | .first _ x => x.errors env
  | .op e _ x => e.errors env + x.errors env

end

/-! ## Items -/

/-- A character of a quoted string. -/
inductive StrChar
  | plain (c : Char)
  | escape (c : Char)
  deriving DecidableEq, Repr

namespace StrChar

def text : StrChar → List Char
  | plain c => [c]
  | escape c => ['\\', c]

/-- `\n`, `\r`, `\t`, `\0`, and any other character after a backslash for itself. -/
def value : StrChar → Char
  | plain c => c
  | escape c =>
    match c with
    | 'n' => '\n'
    | 'r' => '\r'
    | 't' => '\t'
    | '0' => '\x00'
    | c => c

def Ok (delim : Char) : StrChar → Prop
  | plain c => c ≠ delim ∧ c ≠ '\\'
  | escape _ => True

instance (delim : Char) : DecidablePred (Ok delim)
  | plain c => inferInstanceAs (Decidable (c ≠ delim ∧ c ≠ '\\'))
  | escape _ => inferInstanceAs (Decidable True)

end StrChar

inductive DbItem
  | str (delim : Char) (chars : List StrChar)
  | expr (text : List Char) (e : Sum)

def isBlank (c : Char) : Bool := c == ' ' || c == '\t'

/-- The tokenizer reads these tokens off `s`, and `rest` is left. -/
inductive Lexes : List Char → List Token → List Char → Prop
  | nil (s : List Char) : Lexes s [] s
  | cons {s s' rest : List Char} {t : Token} {ts : List Token}
      (token : nextToken s = (t, s', 0)) (ne_eol : t.type ≠ .eol) (tail : Lexes s' ts rest) :
      Lexes s (t :: ts) rest

/-- What may follow an expression. -/
def EndsItem (rest : List Char) : Prop := atEnd rest = true ∨ (skipWs rest).head? = some ','

namespace DbItem

def text : DbItem → List Char
  | str delim chars => delim :: (chars.flatMap StrChar.text ++ [delim])
  | expr text _ => text

/-- A string is closed by the delimiter that opens it. The text of an expression is read as its
tokens, whatever follows the item. -/
def Ok : DbItem → Prop
  | str delim chars => (delim = '"' ∨ delim = '\'') ∧ ∀ c ∈ chars, c.Ok delim
  | expr text e => ∀ rest, EndsItem rest → Lexes (text ++ rest) e.tokens rest

/-- The decoded string, or the low byte of the value. -/
def bytes (env : Env) : DbItem → List Nat
  | str _ chars => chars.map fun c => c.value.toNat % 256
  | expr _ e => [toByte (e.value env)]

end DbItem

/-- An item with the blanks around it. -/
structure DbEntry where
  before : List Char
  item : DbItem
  after : List Char

structure DbEntry.Ok (i : DbEntry) : Prop where
  before : i.before.all isBlank = true
  item : i.item.Ok
  after : i.after.all isBlank = true

/-- What follows an item: the other items, each after a comma, and the end of the line. -/
def dbRest (ending : List Char) : List DbEntry → List Char
  | [] => ending
  | i :: is => ',' :: (i.before ++ (i.item.text ++ (i.after ++ dbRest ending is)))

/-- A `db` line with these items, at least one. -/
structure IsDbLine (line : List Char) (is : List DbEntry) (ending : List Char) : Prop where
  ne_nil : is ≠ []
  entries : ∀ i ∈ is, i.Ok
  atEnd : atEnd ending = true
  directive : ∃ w, isWord "db" w = true ∧ nextToken (splitLine line).2 =
    ({ type := .ident, sval := w }, (dbRest ending is).tail, 0)

/-! ## The property -/

/-- **The line emits the bytes of all items in order, unless an error is reported.** -/
def EmitsAll (env : Env) (line : List Char) (is : List DbEntry) : Prop :=
  lineBytes env line = is.flatMap (fun i => i.item.bytes env) ∨
    0 < (parseStatement env { ptr := (splitLine line).2 }).2.errors

/-! ## The conditions -/

/-- The first token is none that begins an item of a list: a parenthesis, or a plus sign. -/
def Sum.startsOdd : Sum → Bool
  | .first .plus _ => true
  | .first .minus _ => false
  | .first .none (.paren _) => true
  | .first .none _ => false
  | .op e _ _ => e.startsOdd

namespace DbItem

/-- A string that fits into a token and has no NUL, unless it is a character constant; an expression
that does not begin with a parenthesis or a plus sign. -/
def Intact : DbItem → Prop
  | str delim chars =>
    (delim = '\'' ∧ chars.length = 1) ∨ (chars.length ≤ 126 ∧ ∀ c ∈ chars, c.value ≠ '\x00')
  | expr _ e => e.startsOdd = false

/-- The list ends with this item. -/
def Stops : DbItem → Prop
  | str _ chars => 126 < chars.length
  | expr _ e => e.startsOdd = true

/-- The text from where a string is cut. -/
def cutText (delim : Char) (chars : List StrChar) (rest : List Char) : List Char :=
  (chars.drop 126).flatMap StrChar.text ++ delim :: rest

/-- An error is reported for the item: a label is undefined, or the character where a string is cut
begins no token. -/
def Reports (env : Env) (rest : List Char) : DbItem → Prop
  | str delim chars => 126 < chars.length ∧ 0 < (nextToken (cutText delim chars rest)).2.2
  | expr _ e => e.startsOdd = false ∧ 0 < e.errors env

/-- A string is cut before a comma. -/
def CutAtComma (rest : List Char) : DbItem → Prop
  | str delim chars =>
    126 < chars.length ∧ (nextToken (cutText delim chars rest)).1.type = .comma
  | expr _ _ => False

end DbItem

def Intact (is : List DbEntry) : Prop := ∀ i ∈ is, i.item.Intact

/-- An error is reported for an item before the list ends. -/
def Reported (env : Env) (ending : List Char) : List DbEntry → Prop
  | [] => False
  | i :: is =>
    i.item.Reports env (i.after ++ dbRest ending is) ∨ (¬i.item.Stops ∧ Reported env ending is)

/-- No string is cut before a comma, up to where the list ends. -/
def NoCutAtComma (ending : List Char) : List DbEntry → Prop
  | [] => True
  | i :: is =>
    ¬i.item.CutAtComma (i.after ++ dbRest ending is) ∧
      (¬i.item.Stops → NoCutAtComma ending is)

end Nib.Asm
