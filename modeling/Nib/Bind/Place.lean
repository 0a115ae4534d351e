import Nib.Bind.Modules

/-!
# Placement and emission

Two passes over the same events. `place_item` records the segment of every item and `emit_item`
writes the lines; each keeps its own stack of segments. The lines of a function are those of its
body; what matters here is where they go.
-/

namespace Nib.Bind

open Nib.Asm

/-- The segment in force, the segments below it and the number of levels. No segment is -1. -/
structure SegState where
  current : Int := -1
  stack : List Int := []
  depth : Nat := 0
  deriving DecidableEq, Repr

namespace SegState

def push (s : SegState) (seg : Int) : SegState :=
  { current := seg, stack := s.current :: s.stack, depth := s.depth + 1 }

/-- Pop a level, if there is one. -/
def pop (s : SegState) : SegState :=
  match s.stack with
  | [] => { s with depth := s.depth - 1 }
  | seg :: rest => { current := seg, stack := rest, depth := s.depth - 1 }

/-- Pop some levels. -/
def popTimes : Nat → SegState → SegState
  | 0, s => s
  | n + 1, s => popTimes n s.pop

/-- Leave a used module: pop while there are more levels than before it. -/
def unwind (s : SegState) (savedDepth : Nat) : SegState := popTimes (s.depth - savedDepth) s

end SegState

/-! ## The placement pass -/

structure PlaceState where
  segs : SegState := {}
  errors : Nat := 0
  deriving DecidableEq, Repr

/-- Place an item. The result has what the pass records. -/
def placeItem (i : Item) (s : PlaceState) : Item × PlaceState :=
  match i with
  | .fn f => (.fn { f with emitSeg := some (if f.hasAt then f.atSeg else s.segs.current) }, s)
  | .data d =>
    if d.hasAt then
      (.data { d with emitSeg := some d.atSeg }, { s with segs := s.segs.push d.atSeg })
    else if s.segs.current ≥ 0 then (.data { d with emitSeg := some s.segs.current }, s)
    else (.data d, { s with errors := s.errors + 1 })
  | .glob g => (.glob g, if g.hasAt then { s with segs := s.segs.push g.atSeg } else s)
  | .at seg off => (.at seg off, { s with segs := s.segs.push seg })
  | .endAt => (.endAt, { s with segs := s.segs.pop })

mutual

def placeEvent : Event → PlaceState → Event × PlaceState
  | .item module i, s =>
    let (i, s) := placeItem i s
    (.item module i, s)
  | .use sub, s =>
    let (sub, s') := placeEvents sub s
    (.use sub, { s' with segs := s'.segs.unwind s.segs.depth })

def placeEvents : List Event → PlaceState → List Event × PlaceState
  | [], s => ([], s)
  | e :: rest, s =>
    let (e, s) := placeEvent e s
    let (rest, s) := placeEvents rest s
    (e :: rest, s)

end

/-! ## The emission pass -/

/-- A line of the output. `label` is the line of a function, a data block or a global, and stands
for the item as well; it comes with the segment the binder has in force. -/
inductive OutLine
  | label (i : Item) (seg : Int)
  | stmt (st : Statement)

structure EmitState where
  segs : SegState := {}
  out : List OutLine := []

namespace EmitState

def print (s : EmitState) (lines : List OutLine) : EmitState := { s with out := s.out ++ lines }

end EmitState

def orgLine (seg off : Int) : OutLine := .stmt (.org { imm := seg * 16 + off })

def segLine (seg : Int) : OutLine := .stmt (.seg { imm := seg })

/-- Go to a place and put it on the stack of segments. -/
def emitAt (s : EmitState) (seg off : Int) : EmitState :=
  { s.print [orgLine seg off, segLine seg] with segs := s.segs.push seg }

/-- The label of an item and its lines, in the segment that is in force. -/
def itemLines (i : Item) (body : ItemLines) (seg : Int) : List OutLine :=
  .label i seg :: body.lines.map .stmt

/-- A function with `at()` moves the output, but not the stack of segments. -/
def emitFunction (f : PlacedItem) (s : EmitState) : EmitState :=
  let seg := if f.hasAt then f.atSeg else s.segs.current
  (s.print (if f.hasAt then [orgLine f.atSeg f.atOff, segLine f.atSeg] else [])).print
    (itemLines (.fn f) f.body seg)

def emitItem (i : Item) (s : EmitState) : EmitState :=
  match i with
  | .fn f => emitFunction f s
  | .data d =>
    let s' :=
      if d.hasAt then emitAt s d.atSeg d.atOff
      else
        match d.emitSeg with
        | some seg => s.print [segLine seg]
        | none => s
    s'.print (itemLines (.data d) d.body s'.segs.current)
  | .glob g =>
    let s' := if g.hasAt then emitAt s g.atSeg g.atOff else s
    s'.print (itemLines (.glob g) g.body s'.segs.current)
  | .at seg off => emitAt s seg off
  | .endAt => { s.print [.stmt .endorg] with segs := s.segs.pop }

/-- Unwind what a used module left on the stack. -/
def emitUnwind (s : EmitState) (savedDepth : Nat) : EmitState :=
  { s.print (List.replicate (s.segs.depth - savedDepth) (.stmt .endorg)) with
    segs := s.segs.unwind savedDepth }

mutual

def emitEvent : Event → EmitState → EmitState
  | .item _ i, s => emitItem i s
  | .use sub, s => emitUnwind (emitEvents sub s) s.segs.depth

def emitEvents : List Event → EmitState → EmitState
  | [], s => s
  | e :: rest, s => emitEvents rest (emitEvent e s)

end

/-- Both passes over a root module: the events with what the placement pass has recorded, its final
state, and what is written. -/
structure Placed where
  events : List Event
  place : PlaceState
  emit : EmitState

def bindModules (order : List EmitOrder) (root : Text) : Option Placed :=
  (expandRoot order root).map fun (events, _) =>
    let (events, place) := placeEvents events {}
    { events, place, emit := emitEvents events {} }

end Nib.Bind
