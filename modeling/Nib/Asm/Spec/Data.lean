import Nib.Asm.Line

/-!
# Tokens and bytes of lines

* `tokens` — all that `next_token` reads up to the end of the line
* `lineBytes` — the bytes that `db` and `dw` lines emit
* `InImage` — the bytes that were written lie inside the output
* `KeepsAbove` — no line has bytes while the base of `org` is negative
-/

namespace Nib.Asm

/-! ## Tokens -/

/-- Nothing but white space before the end of the line or a comment. -/
def atEnd (s : List Char) : Bool :=
  match skipWs s with
  | [] => true
  | c :: _ => c == '\n' || c == ';'

def tokensFuel : Nat → List Char → List Token
  | 0, _ => []
  | fuel + 1, s => if atEnd s then [] else (nextToken s).1 :: tokensFuel fuel (nextToken s).2.1

/-- The tokens of a text. An unexpected character is a token of its own, of type `T_EOL`. -/
def tokens (s : List Char) : List Token := tokensFuel s.length s

/-! ## Data lines -/

def statementBytes : Statement → List Nat
  | .data bytes => bytes
  | _ => []

/-- The bytes a data line emits. -/
def lineBytes (env : Env) (line : List Char) : List Nat :=
  statementBytes (parseStatement env { ptr := (splitLine line).2 }).1

def linesBytes (env : Env) (lines : List (List Char)) : List Nat :=
  lines.flatMap (lineBytes env)

/-! ## Labels -/

def labelValue (env : Env) (name : List Char) : Int :=
  match findLabel env.labels name with
  | some l => l.value
  | none => 0

def labelSegment (env : Env) (name : List Char) : Int :=
  match findLabel env.labels name with
  | some l => l.segment
  | none => 0

/-- A name that the source can declare: letters, digits and `_`, not a digit first. -/
structure IsName (name : List Char) : Prop where
  start : ∃ c t, name = c :: t ∧ (c.isAlpha = true ∨ c = '_')
  chars : ∀ c ∈ name, c.isAlphanum = true ∨ c = '_'

/-! ## Writes to the image -/

/-- The bytes that a statement emits. -/
def Statement.bytesAt (site : Site) : Statement → List Nat
  | .data bytes => bytes
  | .instr i => (encode site i).bytes
  | _ => []

namespace AsmState

/-- Every write of pass 2 is inside the output. -/
def InImage (s : AsmState) : Prop := ∀ w ∈ s.output, 0 ≤ w.1 ∧ w.1 < maxOutput

/-- The statement of a line and the state in which it is executed, unless the run ends before. -/
def reached (s : AsmState) (text : List Char) : Option (AsmState × Statement) :=
  let (labelDef, rest) := splitLine text
  let s := s.defineLabel labelDef
  let (stmt, p) := parseStatement s.env { ptr := rest }
  let s := s.afterParse p
  if s.stopped then none else some (s, stmt)

/-- A line has bytes only where the base is not negative. -/
def LineAbove (s : AsmState) (line : Nat) (text : List Char) : Prop :=
  ∀ r ∈ s.reached text, r.1.orgBase < 0 → r.2.bytesAt (r.1.site line) = []

def KeepsAbove (s : AsmState) (line : Nat) : List (List Char) → Prop
  | [] => True
  | text :: rest => s.LineAbove line text ∧ (s.processLine line text).KeepsAbove (line + 1) rest

end AsmState

end Nib.Asm
