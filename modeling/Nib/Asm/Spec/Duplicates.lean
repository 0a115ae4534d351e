import Nib.Asm.Spec.Segments

/-!
# Duplicate labels

That a name is declared twice is a fact about the text. What decides whether it is reported is a
fact about the runs: whether pass 1 relaxes a branch, whether a line has an error of another kind,
and whether the lines come to an end at all. These are stated line by line.
-/

namespace Nib.Asm

/-! ## What a line does besides its label -/

/-- The parse of a line after its label. -/
def lineStatement (s : AsmState) (text : List Char) : Statement × ParseState :=
  parseStatement (s.defineLabel (splitLine text).1).env { ptr := (splitLine text).2 }

/-- The site of a line after its label. -/
def lineSite (s : AsmState) (line : Nat) (text : List Char) : Site :=
  (s.defineLabel (splitLine text).1).site line

/-- The parse of the value of an `EQU`. -/
def LabelDef.parse (env : Env) : LabelDef → ParseState
  | .equ _ expr => (parseExpr env { ptr := expr }).2
  | _ => { ptr := [] }

def Statement.bytes (site : Site) : Statement → List Nat
  | .data bytes => bytes
  | .instr i => (encode site i).bytes
  | _ => []

def Statement.errors (site : Site) : Statement → Nat
  | .instr i => (encode site i).errors
  | _ => 0

def Statement.relaxes (site : Site) : Statement → Bool
  | .instr i => (encode site i).relax
  | _ => false

/-- The line holds a branch that is relaxed there. -/
def lineRelaxes (s : AsmState) (line : Nat) (text : List Char) : Bool :=
  (lineStatement s text).1.relaxes (lineSite s line text)

/-- The errors of a line apart from a duplicate label. -/
def lineErrors (s : AsmState) (line : Nat) (text : List Char) : Nat :=
  ((splitLine text).1.parse s.env).errors + (lineStatement s text).2.errors +
    (lineStatement s text).1.errors (lineSite s line text)

/-- Pass 2 writes `n` bytes below the end of the output. -/
def AsmState.HasRoom (s : AsmState) (n : Nat) : Prop :=
  s.pass2 = true → n = 0 ∨ s.pos + n ≤ maxOutput

instance (s : AsmState) (n : Nat) : Decidable (s.HasRoom n) := inferInstanceAs (Decidable (_ → _))

/-- The line is parsed to its end, and its bytes have room. -/
def LineEnds (s : AsmState) (line : Nat) (text : List Char) : Prop :=
  ((splitLine text).1.parse s.env).hung = false ∧ (lineStatement s text).2.hung = false ∧
    s.HasRoom ((lineStatement s text).1.bytes (lineSite s line text)).length

instance (s : AsmState) (line : Nat) (text : List Char) : Decidable (LineEnds s line text) :=
  inferInstanceAs (Decidable (_ ∧ _ ∧ _))

/-! ## All lines -/

/-- No branch is relaxed. -/
def RelaxesNone (s : AsmState) (line : Nat) : List (List Char) → Prop
  | [] => True
  | text :: rest =>
    lineRelaxes s line text = false ∧ RelaxesNone (s.processLine line text) (line + 1) rest

instance RelaxesNone.decidable : ∀ (s : AsmState) (line : Nat) (lines : List (List Char)),
    Decidable (RelaxesNone s line lines)
  | _, _, [] => .isTrue trivial
  | s, line, text :: rest =>
    have := RelaxesNone.decidable (s.processLine line text) (line + 1) rest
    inferInstanceAs (Decidable (_ ∧ _))

/-- Some line has an error apart from a duplicate label. -/
def HasOtherError (s : AsmState) (line : Nat) : List (List Char) → Prop
  | [] => False
  | text :: rest =>
    0 < lineErrors s line text ∨ HasOtherError (s.processLine line text) (line + 1) rest

def LinesEnd (s : AsmState) (line : Nat) : List (List Char) → Prop
  | [] => True
  | text :: rest => LineEnds s line text ∧ LinesEnd (s.processLine line text) (line + 1) rest

instance LinesEnd.decidable : ∀ (s : AsmState) (line : Nat) (lines : List (List Char)),
    Decidable (LinesEnd s line lines)
  | _, _, [] => .isTrue trivial
  | s, line, text :: rest =>
    have := LinesEnd.decidable (s.processLine line text) (line + 1) rest
    inferInstanceAs (Decidable (_ ∧ _))

/-- All lines end in each run of pass 1 from `s` on, which is repeated at most `n` times. -/
def Pass1Ends (lines : List (List Char)) : Nat → AsmState → Prop
  | 0, s => LinesEnd s.startPass1 1 lines
  | n + 1, s =>
    LinesEnd s.startPass1 1 lines ∧
      (RelaxesNone s.startPass1 1 lines ∨ Pass1Ends lines n (runPass1 lines s))

/-- All lines end in every run. -/
def RunEnds (lines : List (List Char)) : Prop :=
  Pass1Ends lines 4 {} ∧ LinesEnd (afterPass1 lines).startPass2 1 lines

/-- nibasm comes to the end of its last pass with an error. -/
def FinishesWithErrors (lines : List (List Char)) : Prop :=
  (assemble lines).stopped = false ∧ 0 < (assemble lines).errors

end Nib.Asm
