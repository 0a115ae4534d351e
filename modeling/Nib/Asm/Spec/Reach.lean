import Nib.Asm.Spec.Duplicates

/-!
# The reach of LOOP and JCXZ

* `rangeReports` — how often a run reports a target that is out of range
* `FinalLoopsReach` — all targets are in range in the final layout
* `KnownLoopsReach` — all targets are in range wherever the runs expect them to be
-/

namespace Nib.Asm

/-! ## Reports -/

/-- The reports of `asm_loop`, also behind prefixes. -/
def Instr.rangeReports (site : Site) : Instr → Nat
  | .loop _ op => if fitsByte (site.rel op.imm) then 0 else 1
  | .prefixed _ rest => rest.rangeReports (site.advance 1)
  | _ => 0

def Statement.rangeReports (site : Site) : Statement → Nat
  | .instr i => i.rangeReports site
  | _ => 0

/-- A line that is never parsed to its end reports nothing. -/
def lineRangeReports (s : AsmState) (line : Nat) (text : List Char) : Nat :=
  if s.stopped || ((splitLine text).1.parse s.env).hung || (lineStatement s text).2.hung then 0
  else (lineStatement s text).1.rangeReports (lineSite s line text)

def runRangeReports (s : AsmState) (line : Nat) : List (List Char) → Nat
  | [] => 0
  | text :: rest =>
    lineRangeReports s line text + runRangeReports (s.processLine line text) (line + 1) rest

/-- The reports in all runs of pass 1 from `s` on, which is repeated at most `n` times. -/
def pass1RangeReports (lines : List (List Char)) : Nat → AsmState → Nat
  | 0, s => runRangeReports s.startPass1 1 lines
  | n + 1, s =>
    runRangeReports s.startPass1 1 lines +
      if (runPass1 lines s).jccRelaxed then pass1RangeReports lines n (runPass1 lines s) else 0

/-- The reports in all passes. -/
def rangeReports (lines : List (List Char)) : Nat :=
  pass1RangeReports lines 4 {} + runRangeReports (afterPass1 lines).startPass2 1 lines

/-! ## Reach -/

/-- The target is at most 126 bytes before and 129 bytes behind the instruction at `pos`. -/
def Instr.LoopReaches (pos : Int) : Instr → Prop
  | .loop _ op => pos - 126 ≤ op.imm ∧ op.imm ≤ pos + 129
  | .prefixed _ rest => rest.LoopReaches (pos + 1)
  | _ => True

def Statement.LoopReaches (pos : Int) : Statement → Prop
  | .instr i => i.LoopReaches pos
  | _ => True

instance Instr.LoopReaches.decidable : ∀ (pos : Int) (i : Instr), Decidable (i.LoopReaches pos)
  | pos, .loop _ op => inferInstanceAs (Decidable (pos - 126 ≤ op.imm ∧ op.imm ≤ pos + 129))
  | pos, .prefixed _ rest => Instr.LoopReaches.decidable (pos + 1) rest
  | _, .bytes .. | _, .alu .. | _, .shift .. | _, .mov .. | _, .xchg .. | _, .test ..
  | _, .lea .. | _, .loadMem .. | _, .incDec .. | _, .group3 .. | _, .imulImm ..
  | _, .pushPop .. | _, .jmpCall .. | _, .jcc .. | _, .ret .. | _, .int .. | _, .inOut ..
  | _, .enter .. | _, .bitop .. | _, .bextBins .. | _, .brkem .. | _, .unknown => .isTrue trivial

instance (pos : Int) : ∀ st : Statement, Decidable (st.LoopReaches pos)
  | .instr i => Instr.LoopReaches.decidable pos i
  | .empty | .notInstr | .org .. | .endorg | .data .. | .seg .. => .isTrue trivial

/-- The position of a line's first byte. -/
def linePos (s : AsmState) (text : List Char) : Int := (s.defineLabel (splitLine text).1).pos

/-- The target as the labels stand when the line is reached: a label that is not defined yet
counts as 0, and one further down is where the run before has left it. -/
def KnownReach (s : AsmState) (text : List Char) : Prop :=
  (lineStatement s text).1.LoopReaches (linePos s text)

/-- The target by the labels of the end. -/
def FinalReach (labels : List Label) (s : AsmState) (text : List Char) : Prop :=
  (parseStatement { labels, pass2 := true } { ptr := (splitLine text).2 }).1.LoopReaches
    (linePos s text)

/-- A property of each line of a run and the state in which it is reached. -/
def AlongLines (P : AsmState → List Char → Prop) (s : AsmState) (line : Nat) :
    List (List Char) → Prop
  | [] => True
  | text :: rest => P s text ∧ AlongLines P (s.processLine line text) (line + 1) rest

/-- A property of the start of each run of pass 1. -/
def EachPass1 (P : AsmState → Prop) (lines : List (List Char)) : Nat → AsmState → Prop
  | 0, s => P s.startPass1
  | n + 1, s =>
    P s.startPass1 ∧
      ((runPass1 lines s).jccRelaxed = true → EachPass1 P lines n (runPass1 lines s))

/-- There is a final layout, and in it all targets are in range. -/
def FinalLoopsReach (lines : List (List Char)) : Prop :=
  (assemble lines).stopped = false ∧
    AlongLines (FinalReach (assemble lines).labels) (afterPass1 lines).startPass2 1 lines

/-- In each run all targets are in range as they are known there. -/
def KnownLoopsReach (lines : List (List Char)) : Prop :=
  EachPass1 (fun s => AlongLines KnownReach s 1 lines) lines 4 {} ∧
    AlongLines KnownReach (afterPass1 lines).startPass2 1 lines

instance (s : AsmState) (text : List Char) : Decidable (KnownReach s text) :=
  inferInstanceAs (Decidable (Statement.LoopReaches _ _))

instance (labels : List Label) (s : AsmState) (text : List Char) :
    Decidable (FinalReach labels s text) :=
  inferInstanceAs (Decidable (Statement.LoopReaches _ _))

instance AlongLines.decidable (P : AsmState → List Char → Prop)
    [∀ s text, Decidable (P s text)] : ∀ (s : AsmState) (line : Nat) (lines : List (List Char)),
    Decidable (AlongLines P s line lines)
  | _, _, [] => .isTrue trivial
  | s, line, text :: rest =>
    have := AlongLines.decidable P (s.processLine line text) (line + 1) rest
    inferInstanceAs (Decidable (_ ∧ _))

instance (lines : List (List Char)) : Decidable (FinalLoopsReach lines) :=
  inferInstanceAs (Decidable (_ ∧ _))

end Nib.Asm
