import Nib.Asm.Line

/-!
# Encoding forms

The assembler has a shorter and a longer encoding for some instructions and chooses by a value:
an immediate, a displacement, the distance of a branch. `forms` lists these choices for a line.
A choice that does not change the number of bytes is not listed.
-/

namespace Nib.Asm

/-- A choice by a truth value. -/
def boolForm (b : Bool) : Int := if b then 1 else 0

/-- No displacement, a byte, or a word. A direct address always has a word. -/
def Operand.dispForm (op : Operand) : Int :=
  if op.isMem && !op.isDirect then
    match findRm op.base op.index with
    | some rm => modField op rm
    | none => 0
  else 0

/-- The choices of one instruction, at its site. -/
def Instr.forms (site : Site) : Instr → List Int
  | .bytes _ => []
  | .alu _ dst src =>
    [ dst.dispForm, src.dispForm,
      boolForm (src.isImm && !dst.isAx && !dst.isAl && aluShortImm dst src) ]
  | .shift _ dst src => [ dst.dispForm, boolForm (src.isImm && src.imm == 1) ]
  | .mov dst src => [ dst.dispForm, src.dispForm ]
  | .xchg dst src => [ dst.dispForm, src.dispForm ]
  | .test dst _ => [ dst.dispForm ]
  | .lea _ src => [ src.dispForm ]
  | .loadMem _ _ src => [ src.dispForm ]
  | .incDec _ dst => [ dst.dispForm ]
  | .group3 _ dst => [ dst.dispForm ]
  | .imulImm _ _ imm => [ boolForm (fitsByte imm) ]
  | .pushPop isPop op => [ op.dispForm, boolForm (!isPop && op.isImm && fitsByte op.imm) ]
  | .jmpCall isCall op =>
    if op.isImm || !op.label.isEmpty then
      [ boolForm (!op.isFar && !isCall && jmpIsNear site op.imm) ]
    else [ op.dispForm ]
  | .jcc _ label op => [ boolForm (jccIsLong site label op.imm) ]
  | .loop _ _ => []
  | .ret _ _ => []
  | .int op => [ boolForm (op.imm == 3) ]
  | .inOut _ _ _ => []
  | .enter _ _ => []
  | .bitop _ dst _ => [ dst.dispForm ]
  | .bextBins _ _ second =>
    match second with
    | some op => [ boolForm (op.isImm && decide (op.imm < 0 ∨ op.imm > 15)) ]
    | none => []
  | .brkem _ => []
  | .prefixed _ rest => rest.forms (site.advance 1)
  | .unknown => []

/-- `org` moves the position by its operand. -/
def Statement.forms (site : Site) : Statement → List Int
  | .org op => [ op.imm ]
  | .instr i => i.forms site
  | _ => []

/-- The choices made for a line in the state before it. -/
def lineForms (s : AsmState) (line : Nat) (text : List Char) : List Int :=
  let s := s.defineLabel (splitLine text).1
  (parseStatement s.env { ptr := (splitLine text).2 }).1.forms (s.site line)

/-- Two runs over the same lines make the same choices at every line. -/
def FormsAgree (s t : AsmState) (line : Nat) : List (List Char) → Prop
  | [] => True
  | text :: rest =>
    lineForms s line text = lineForms t line text ∧
      FormsAgree (s.processLine line text) (t.processLine line text) (line + 1) rest

instance FormsAgree.decidable : ∀ (s t : AsmState) (line : Nat) (lines : List (List Char)),
    Decidable (FormsAgree s t line lines)
  | _, _, _, [] => .isTrue trivial
  | s, t, line, text :: rest =>
    have := FormsAgree.decidable (s.processLine line text) (t.processLine line text) (line + 1) rest
    inferInstanceAs (Decidable (_ ∧ _))

/-! ## Layout -/

/-- The number of bytes a statement emits. -/
def Statement.length (site : Site) : Statement → Nat
  | .data bytes => bytes.length
  | .instr i => (encode site i).bytes.length
  | _ => 0

/-- The number of bytes a line emits in the state before it. -/
def lineLength (s : AsmState) (line : Nat) (text : List Char) : Nat :=
  let s := s.defineLabel (splitLine text).1
  (parseStatement s.env { ptr := (splitLine text).2 }).1.length (s.site line)

/-- Two runs over the same lines are at the same position before every line, and every line
emits the same number of bytes in both. -/
def SamePositions (s t : AsmState) (line : Nat) : List (List Char) → Prop
  | [] => s.pos = t.pos
  | text :: rest =>
    s.pos = t.pos ∧ lineLength s line text = lineLength t line text ∧
      SamePositions (s.processLine line text) (t.processLine line text) (line + 1) rest

/-- Every code or data label has after the last run of pass 1 the address at which pass 2 places
it, and the two runs agree at every line. -/
def LayoutAgrees (lines : List (List Char)) : Prop :=
  SamePositions (lastPass1Start lines) (afterPass1 lines).startPass2 1 lines ∧
    ∀ name l, findLabel (assemble lines).labels name = some l → l.ltype ≠ .equ →
      ∃ l', findLabel (afterPass1 lines).labels name = some l' ∧ l'.value = l.value

end Nib.Asm
