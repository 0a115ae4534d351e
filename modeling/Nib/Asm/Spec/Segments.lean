import Nib.Asm.Spec.Forms

/-!
# Segments and offsets of labels

* `Resolves` — a use of a label leads to a physical address
* `SegmentsResolve` — every use of a label leads to the address of its line
* `Settled`, `Aligned` — when it does
-/

namespace Nib.Asm

/-! ## Addresses -/

/-- The physical address of a segment and an offset. -/
def farAddress (segment offset : Int) : Int :=
  (16 * (segment % 65536) + offset % 65536) % 1048576

/-- The word at the start of some bytes. -/
def wordOf (bytes : List Nat) : Int := bytes.getD 0 0 + 256 * bytes.getD 1 0

def signedByte (n : Int) : Int := if n < 128 then n else n - 256

/-- Where a near jump or call leads: its displacement is added to the offset of the next
instruction. -/
def nearTarget (segment pos : Int) (bytes : List Nat) : Int :=
  let disp : Int := if bytes.length = 2 then signedByte (bytes.getD 1 0) else wordOf (bytes.drop 1)
  let ip := (pos + bytes.length - 16 * segment) % 65536
  farAddress segment (ip + disp)

/-! ## Uses -/

/-- The operand that a label is read as. -/
def labelOp (env : Env) (isFar : Bool) (name : List Char) : Operand :=
  (labelOperand { isFar } 0 name env { ptr := [] }).1

/-- What a jump or call of a label emits. -/
def jumpBytes (s : AsmState) (line : Nat) (isCall isFar : Bool) (name : List Char) : List Nat :=
  (encode (s.site line) (.jmpCall isCall (labelOp s.env isFar name))).bytes

/-- **A use of a label leads to an address**: the words that its value and its segment are emitted
as, a far jump or call, and a near one from the segment of the label. -/
structure Resolves (s : AsmState) (line : Nat) (name : List Char) (addr : Int) : Prop where
  words : ∀ p, farAddress (wordOf (emit16 (lookupSegment name s.env p).1).bytes)
    (wordOf (emit16 (lookupLabel name s.env p).1).bytes) = addr
  far : ∀ isCall, farAddress (wordOf ((jumpBytes s line isCall true name).drop 3))
    (wordOf ((jumpBytes s line isCall true name).drop 1)) = addr
  near : ∀ p isCall, s.segBase = (lookupSegment name s.env p).1 →
    nearTarget s.segBase s.pos (jumpBytes s line isCall false name) = addr

/-! ## The property -/

/-- The state of pass 2 before a line. -/
def beforeLine (lines : List (List Char)) (i : Nat) : AsmState :=
  (afterPass1 lines).startPass2.processLines 1 (lines.take i)

/-- The state in which the statement of a line is parsed. -/
def atStatement (lines : List (List Char)) (i : Nat) (text : List Char) : AsmState :=
  (beforeLine lines i).defineLabel (splitLine text).1

/-- Every use of a code or data label leads to the physical address of its line. -/
def SegmentsResolve (lines : List (List Char)) : Prop :=
  ∀ (i : Nat) (text name : List Char) (ltype : LabelType), lines[i]? = some text →
    (splitLine text).1 = .pos name ltype → ∀ (k : Nat) (use : List Char), lines[k]? = some use →
      Resolves (atStatement lines k use) (k + 1) name ((beforeLine lines i).pos % 1048576)

/-! ## The condition -/

/-- The segment that a line sets. -/
def lineSegment (s : AsmState) (text : List Char) : Option Int :=
  match (parseStatement (s.defineLabel (splitLine text).1).env { ptr := (splitLine text).2 }).1 with
  | .seg op => some op.imm
  | _ => none

/-- Two runs over the same lines set the same segments. -/
def SegmentsAgree (s t : AsmState) (line : Nat) : List (List Char) → Prop
  | [] => True
  | text :: rest =>
    lineSegment s text = lineSegment t text ∧
      SegmentsAgree (s.processLine line text) (t.processLine line text) (line + 1) rest

instance SegmentsAgree.decidable : ∀ (s t : AsmState) (line : Nat) (lines : List (List Char)),
    Decidable (SegmentsAgree s t line lines)
  | _, _, _, [] => .isTrue trivial
  | s, t, line, text :: rest =>
    have := SegmentsAgree.decidable (s.processLine line text) (t.processLine line text) (line + 1)
      rest
    inferInstanceAs (Decidable (_ ∧ _))

/-- The name that a line declares. -/
def declaredName (text : List Char) : Option (List Char) :=
  match (splitLine text).1 with
  | .none => none
  | .equ name _ => some name
  | .pos name _ => some name

def declares (text name : List Char) : Bool :=
  match declaredName text with
  | none => false
  | some n => sameName n name

/-- The second line declares the name of the first one. -/
def redeclares (a b : List Char) : Bool :=
  match declaredName a with
  | none => false
  | some name => declares b name

/-- No name is declared twice. -/
def DeclaredOnce (lines : List (List Char)) : Prop :=
  lines.Pairwise fun a b => redeclares a b = false

/-- The last run of pass 1 and pass 2 make the same choices and set the same segments, and no name
is declared twice. -/
structure Settled (lines : List (List Char)) : Prop where
  forms : FormsAgree (lastPass1Start lines) (afterPass1 lines).startPass2 1 lines
  segments : SegmentsAgree (lastPass1Start lines) (afterPass1 lines).startPass2 1 lines
  once : DeclaredOnce lines

/-- Every label lies in the 64 KiB from a multiple of 64 KiB that its segment starts at. -/
def Aligned (lines : List (List Char)) : Prop :=
  ∀ (i : Nat) (text name : List Char) (ltype : LabelType), lines[i]? = some text →
    (splitLine text).1 = .pos name ltype →
      16 * (beforeLine lines i).segBase % 1048576 =
        65536 * ((beforeLine lines i).pos / 65536) % 1048576

end Nib.Asm
