import Nib.Bind.Place

/-!
# Levels of `at()`

What the placement directives mean: every `at()`, as a directive or on a function, a data block or
a global, opens one level, `end at;` closes the innermost one, and a used module leaves the levels
as they were. Beside it, what the written lines do to the position of the assembler.
-/

namespace Nib.Bind

open Nib.Asm

/-- The segments of the open levels, innermost first. -/
abbrev Levels : Type := List Int

def Item.atSeg? : Item → Option Int
  | .fn x | .data x | .glob x => if x.hasAt then some x.atSeg else none
  | .at seg _ => some seg
  | .endAt => none

def Item.hasLabel : Item → Bool
  | .fn _ | .data _ | .glob _ => true
  | _ => false

def Item.levels (i : Item) (l : Levels) : Levels :=
  match i with
  | .endAt => l.tail
  | i => i.atSeg?.toList ++ l

/-- What holds where an item is written: the innermost segment and the number of levels. -/
structure Mark where
  item : Item
  seg : Option Int
  depth : Nat

def Item.marks (i : Item) (l : Levels) : List Mark :=
  if i.hasLabel then [⟨i, (i.levels l).head?, (i.levels l).length⟩] else []

mutual

/-- The marks of an event, and the levels after it. -/
def atEvent : Event → Levels → List Mark × Levels
  | .item _ i, l => (i.marks l, i.levels l)
  | .use sub, l => ((atEvents sub l).1, l)

def atEvents : List Event → Levels → List Mark × Levels
  | [], l => ([], l)
  | e :: rest, l =>
    let (marks, l) := atEvent e l
    let (marks', l) := atEvents rest l
    (marks ++ marks', l)

end

/-- The placement pass records the innermost segment. A global has no record. -/
def Mark.Recorded (m : Mark) : Prop :=
  match m.item with
  | .fn f => f.emitSeg = some (m.seg.getD (-1))
  | .data d => ∃ seg, m.seg = some seg ∧ d.emitSeg = some seg
  | _ => True

/-! ## Which modules keep the levels -/

mutual

/-- All items, those of used modules included. -/
def eventItems : Event → List Item
  | .item _ i => [i]
  | .use sub => eventsItems sub

def eventsItems : List Event → List Item
  | [] => []
  | e :: rest => eventItems e ++ eventsItems rest

end

/-- No function has an `at()` of its own. -/
def NoAtFn (events : List Event) : Prop := ∀ f, .fn f ∈ eventsItems events → f.hasAt = false

/-- Starting with some levels, every `end at;` closes a level of the same module. -/
def Closes : Nat → List Event → Prop
  | _, [] => True
  | n, .item _ .endAt :: rest => 0 < n ∧ Closes (n - 1) rest
  | n, .item _ i :: rest => Closes (n + i.atSeg?.toList.length) rest
  | n, .use _ :: rest => Closes n rest

mutual

/-- No used module closes a level of the module that uses it. -/
def EventKeeps : Event → Prop
  | .item .. => True
  | .use sub => Closes 0 sub ∧ EventsKeep sub

def EventsKeep : List Event → Prop
  | [] => True
  | e :: rest => EventKeeps e ∧ EventsKeep rest

end

/-- No item is written outside of the levels that the module has opened. -/
def WritesInside : Nat → List Event → Prop
  | _, [] => True
  | n, .item _ .endAt :: rest => WritesInside (n - 1) rest
  | n, .item _ i :: rest =>
    let n := n + i.atSeg?.toList.length
    (i.hasLabel = true → 0 < n) ∧ WritesInside n rest
  | n, .use sub :: rest => (n = 0 → WritesInside 0 sub) ∧ WritesInside n rest

/-! ## The position of the assembler -/

def Item.name : Item → Text
  | .fn x | .data x | .glob x => x.name
  | _ => []

/-- The line is numbered for the table of relaxed branches. -/
def OutLine.exec (n : Nat) (s : AsmState) : OutLine → AsmState
  | .label i _ => s.defineLabel (.pos i.name .code)
  | .stmt st => s.execStatement n st

def runLines : Nat → List OutLine → AsmState → AsmState
  | _, [], s => s
  | n, line :: rest, s => runLines (n + 1) rest (line.exec n s)

/-- What holds where the label of an item is assembled: the segment of the binder, the segment of
the assembler and the number of saved positions. -/
structure OutMark where
  item : Item
  seg : Int
  segBase : Int
  depth : Nat

def OutLine.marks (s : AsmState) : OutLine → List OutMark
  | .label i seg => [⟨i, seg, s.segBase, s.orgStack.length⟩]
  | .stmt _ => []

def outMarks : Nat → List OutLine → AsmState → List OutMark
  | _, [], _ => []
  | n, line :: rest, s => line.marks s ++ outMarks (n + 1) rest (line.exec n s)

/-- Without a level the binder has no segment, and the assembler has segment 0. -/
def Mark.written (m : Mark) : OutMark := ⟨m.item, m.seg.getD (-1), m.seg.getD 0, m.depth⟩

/-- The positions of the assembler: the current one, then the saved ones. -/
def frames (s : AsmState) : List OrgState := ⟨s.orgBase, s.outPos, s.segBase⟩ :: s.orgStack

/-- The emission of some events comes to a used module, in a state and at some levels. -/
inductive ComesTo : List Event → EmitState → Levels → List Event → EmitState → Levels → Prop
  | here (sub rest : List Event) (e : EmitState) (l : Levels) :
    ComesTo (.use sub :: rest) e l sub e l
  | inside {sub sub' rest : List Event} {e e' : EmitState} {l l' : Levels}
    (h : ComesTo sub e l sub' e' l') : ComesTo (.use sub :: rest) e l sub' e' l'
  | later {ev : Event} {rest sub : List Event} {e e' : EmitState} {l l' : Levels}
    (h : ComesTo rest (emitEvent ev e) (atEvent ev l).2 sub e' l') :
    ComesTo (ev :: rest) e l sub e' l'

/-- A used module leaves the binder and the assembler where they were: the segments, the base, the
segment and the saved positions. The output moves only by what the module writes there. -/
structure UseKeeps (sub : List Event) (e : EmitState) (a : AsmState) : Prop where
  segs : (emitEvent (.use sub) e).segs = e.segs
  orgBase : (runLines 1 (emitEvent (.use sub) e).out a).orgBase = (runLines 1 e.out a).orgBase
  segBase : (runLines 1 (emitEvent (.use sub) e).out a).segBase = (runLines 1 e.out a).segBase
  saved : (runLines 1 (emitEvent (.use sub) e).out a).orgStack = (runLines 1 e.out a).orgStack
  outPos : WritesInside 0 sub →
    (runLines 1 (emitEvent (.use sub) e).out a).outPos = (runLines 1 e.out a).outPos

/-- The placement of a bound program: the placement pass records the innermost segment, the lines
are written there, at as many saved positions as there are levels, and used modules keep the place
of the module that uses them. -/
structure Tracks (r : Placed) : Prop where
  recorded : ∀ m ∈ (atEvents r.events []).1, m.Recorded
  written : ∀ a : AsmState, a.orgStack = [] → a.segBase = 0 →
    outMarks 1 r.emit.out a = (atEvents r.events []).1.map Mark.written
  keeps : ∀ a : AsmState, a.orgStack = [] → a.segBase = 0 → ∀ sub e l,
    ComesTo r.events {} [] sub e l → UseKeeps sub e a

end Nib.Bind
